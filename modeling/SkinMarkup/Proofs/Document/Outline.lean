import SkinMarkup.Proofs.Document.Steps
import SkinMarkup.Proofs.Scan.Layout
import SkinMarkup.Proofs.Tag.Marks

/-!
# A tree and its text have the same outline

The marks of a builder are those of everything it has read, the open tags
without their ends. Each step adds the mark of its event and nothing else
(`Step.marks_eq`), so the marks of a document are the element tokens of its
text, in order: `elements_of_parseStrict`.
-/

namespace SkinMarkup

namespace Builder

/-- The marks of open tags, the outermost tag first. -/
def openMarks : List Tag → List (TokenKind × Span)
  | [] => []
  | t :: others =>
    openMarks others ++ (.opening, ⟨t.head.start, t.head.startTagEnd⟩) :: Tag.marksAll t.tags

/-- The marks of everything that a builder has read. -/
def marks (b : Builder) : List (TokenKind × Span) :=
  (b.root.map Tag.marks).getD [] ++ openMarks b.opened

/-- A builder with a root has nothing open, and no open tag is an empty
element. -/
structure Regular (b : Builder) : Prop where
  alone : b.opened = [] ∨ b.root = none
  notEmpty : ∀ t ∈ b.opened, t.head.selfClosing = false

theorem regular_start : start.Regular :=
  ⟨Or.inl rfl, by rintro t ⟨⟩⟩

theorem Regular.root_eq_none {b : Builder} (h : b.Regular) {t : Tag} {others : List Tag}
    (hopened : b.opened = t :: others) : b.root = none := by
  rcases h.alone with hnil | hroot
  · rw [hopened] at hnil
    cases hnil
  · exact hroot

theorem Regular.not_selfClosing {b : Builder} (h : b.Regular) {t : Tag} {others : List Tag}
    (hopened : b.opened = t :: others) : t.head.selfClosing = false :=
  h.notEmpty t (by rw [hopened]; exact List.mem_cons_self)

theorem Regular.tail {b : Builder} (h : b.Regular) {t : Tag} {others : List Tag}
    (hopened : b.opened = t :: others) : Regular { b with opened := others } := by
  refine ⟨Or.inr (h.root_eq_none hopened), ?_⟩
  intro x hx
  exact h.notEmpty x (by rw [hopened]; exact List.mem_cons_of_mem _ hx)

theorem Regular.cons {b : Builder} (h : b.Regular) {t : Tag} (hroot : b.root = none)
    (ht : t.head.selfClosing = false) : Regular { b with opened := t :: b.opened } := by
  refine ⟨Or.inr hroot, ?_⟩
  intro x hx
  rcases List.mem_cons.mp hx with rfl | hx
  · exact ht
  · exact h.notEmpty x hx

theorem Regular.attach {b : Builder} (h : b.Regular) (t : Tag) : (b.attach t).Regular := by
  unfold Builder.attach
  split
  · next parent others hopened =>
    have hempty := h.not_selfClosing hopened
    exact (h.tail hopened).cons (h.root_eq_none hopened) hempty
  · next hopened => exact ⟨Or.inl hopened, h.notEmpty⟩

/-! ## One step -/

theorem length_attach (b : Builder) (t : Tag) : (b.attach t).opened.length = b.opened.length := by
  unfold Builder.attach
  split
  · next parent others hopened => rw [hopened, List.length_cons, List.length_cons]
  · rfl

/-- A complete tag adds its marks, wherever it goes. -/
theorem marks_attach {b : Builder} {t : Tag} (hroot : b.opened = [] → b.root = none) :
    (b.attach t).marks = b.marks ++ t.marks := by
  unfold Builder.attach
  split
  · next parent others hopened => simp [marks, openMarks, hopened, Tag.push]
  · next hopened => simp [marks, openMarks, hopened, hroot hopened]

variable {s : Source} {b b' : Builder} {offset : Nat} {event : Event}

theorem Step.regular (h : Step s b offset event b') (hb : b.Regular) : b'.Regular := by
  cases h with
  | skip => exact hb
  | leaf leaf hkind hopened =>
    have hempty := hb.not_selfClosing hopened
    exact (hb.tail hopened).cons (hb.root_eq_none hopened) hempty
  | opening hopen =>
    obtain ⟨hroot, -, -, -, -, rfl⟩ := openTag_eq_ok hopen
    exact hb.cons (hb.alone.elim hroot id) rfl
  | empty hopen => exact hb.attach _
  | closing hopened hname => exact (hb.tail hopened).attach _

/-- **A step adds the mark of its event.** -/
theorem Step.marks_eq (h : Step s b offset event b') (hb : b.Regular) :
    b'.marks = b.marks ++ (Event.tokensFrom offset [event]).map Token.mark := by
  cases h with
  | skip hkind => simp [Event.tokensFrom, hkind]
  | leaf leaf hkind hopened => simp [Event.tokensFrom, hkind, marks, openMarks, hopened]
  | opening hopen =>
    obtain ⟨-, -, attributes, -, -, rfl⟩ := openTag_eq_ok hopen
    simp [Event.tokensFrom, Event.elementKind?, marks, openMarks, newTag, Token.mark, Token.span,
      Token.stop]
  | empty hopen =>
    obtain ⟨hroot, -, attributes, -, -, rfl⟩ := openTag_eq_ok hopen
    rw [marks_attach hroot, Tag.marks_of_selfClosing rfl]
    rfl
  | @closing content t others hopened hname =>
    have hnone : Builder.root ⟨others, b.root⟩ = none := hb.root_eq_none hopened
    have hempty := hb.not_selfClosing hopened
    rw [marks_attach fun _ => hnone, Tag.marks_of_not_selfClosing (by exact hempty)]
    simp [Event.tokensFrom, Event.elementKind?, marks, openMarks, hopened, closeTag, Tag.endMark,
      Token.mark, Token.span, Token.stop]

/-- A step opens and closes as its event says. -/
theorem Step.depthAfter_eq (h : Step s b offset event b') :
    Event.depthAfter b.opened.length [event] = some b'.opened.length := by
  cases h with
  | skip hkind => simp [Event.depthAfter, hkind]
  | leaf leaf hkind hopened => simp [Event.depthAfter, hkind, hopened]
  | opening hopen => rfl
  | empty hopen => simp [Event.depthAfter, Event.elementKind?, TokenKind.depthAfter, length_attach]
  | closing hopened hname =>
    simp [Event.depthAfter, Event.elementKind?, TokenKind.depthAfter, length_attach, hopened]

/-! ## Runs -/

theorem run_marks_eq {events : List Event} (hb : b.Regular)
    (hrun : b.run s offset events = (b', none)) :
    b'.marks = b.marks ++ (Event.tokensFrom offset events).map Token.mark ∧
      Event.depthAfter b.opened.length events = some b'.opened.length := by
  induction events generalizing b offset with
  | nil =>
    cases hrun
    exact ⟨(List.append_nil _).symm, rfl⟩
  | cons event events ih =>
    obtain ⟨next, hstep, hrun⟩ := run_cons_eq_none hrun
    obtain ⟨hmarks, hdepth⟩ := ih (hstep.regular hb) hrun
    constructor
    · rw [hmarks, hstep.marks_eq hb, Event.tokensFrom_cons offset event events, List.map_append,
        List.append_assoc]
    · rw [Event.depthAfter_cons, hstep.depthAfter_eq, Option.bind_some, hdepth]

end Builder

/-! ## Documents -/

variable {t : Text} {root : Tag}

/-- A document is scanned to its end, and its element tokens stand at the marks
of its tree. -/
theorem exists_reading_of_parseStrict (hplain : Plain t) (h : parseStrict t = .ok root) :
    ∃ tokens, (scan t).reading = (tokens, 0, none) ∧ tokens.map Token.mark = root.marks := by
  obtain ⟨events, hlex, hrun⟩ := exists_run_of_parseStrict hplain.unmarked h
  obtain ⟨hmarks, hdepth⟩ := Builder.run_marks_eq Builder.regular_start hrun
  refine ⟨Event.tokensFrom 0 events,
    Scan.scanFrom_of_lexFrom hplain.noDoctype hplain.noEscapedQuote hlex hdepth, ?_⟩
  simpa [Builder.marks, Builder.start, Builder.openMarks] using hmarks.symm

/-- The element tokens of a document can be read off its tree. -/
theorem elements_of_parseStrict (hplain : Plain t) (h : parseStrict t = .ok root) :
    (scan t).elements = Tag.tokens t [root] := by
  obtain ⟨tokens, hreading, hmarks⟩ := exists_reading_of_parseStrict hplain h
  have helements : (scan t).elements = tokens := congrArg Prod.fst hreading
  calc (scan t).elements = (scan t).elements.map id := (List.map_id _).symm
    _ = (scan t).elements.map fun token => Token.ofMark t token.mark := by
      refine List.map_congr_left fun token htoken => ?_
      have hmem := Scan.mem_tokens_of_mem_elements htoken
      exact (Token.ofMark_mark (Scan.slice?_of_mem_tokens hmem)).symm
    _ = Tag.tokens t [root] := by
      rw [helements, Tag.tokens, Tag.marksAll_cons, Tag.marksAll_nil, List.append_nil, ← hmarks,
        List.map_map]
      rfl

/-- **Scanning and reading agree.** A document without a byte order mark, a
document type declaration or an escaped quote is scanned to its end with
nothing left open, and its element tokens are, in document order, the marks of
its tree. -/
theorem scan_eq_marks_of_parseStrict (hplain : Plain t) (h : parseStrict t = .ok root) :
    (scan t).isClean = true ∧ (scan t).elements.map Token.mark = root.marks := by
  obtain ⟨tokens, hreading, hmarks⟩ := exists_reading_of_parseStrict hplain h
  simp only [Scan.reading, Prod.mk.injEq] at hreading
  obtain ⟨helements, hdepth, hfailure⟩ := hreading
  refine ⟨?_, by rw [helements, hmarks]⟩
  rw [Scan.isClean, hdepth, hfailure]
  rfl

/-- A start tag with a `>` in a value, an empty element, and a comment with
markup in it. -/
theorem scan_eq_marks_of_nested :
    let t := "<a x='>'><b/><!-- <c> --></a>".toList
    ∃ root, Plain t ∧ parseStrict t = .ok root ∧
      (scan t).isClean = true ∧ (scan t).elements.map Token.mark = root.marks := by
  intro t
  have hplain : Plain t := by decide +kernel
  have hany : (parseStrict t).toOption.any (fun _ => true) = true := by decide +kernel
  obtain ⟨root, hroot, -⟩ := exists_of_any_toOption hany
  exact ⟨root, hplain, hroot, scan_eq_marks_of_parseStrict hplain hroot⟩

/-- A document type declaration in lower case is balanced by the reader and
ends at its first `>` for the scan, which then meets a stray end tag. -/
theorem not_scan_eq_marks_of_lowercase_doctype :
    ¬ ∀ (t : Text) (root : Tag), t.head? ≠ some Source.mark →
      containsWord "<!DOCTYPE".toList t = false → NoEscapedQuote t → parseStrict t = .ok root →
      (scan t).isClean = true ∧ (scan t).elements.map Token.mark = root.marks := by
  intro h
  have hany : (parseStrict "<!doctype x <<a></b>>><r/>".toList).toOption.any (fun _ => true) =
      true := by
    decide +kernel
  obtain ⟨root, hroot, -⟩ := exists_of_any_toOption hany
  have hclean := (h _ root (by decide +kernel) (by decide +kernel) (by decide +kernel) hroot).1
  revert hclean
  decide +kernel

end SkinMarkup
