import SkinMarkup.Document.Parse
import SkinMarkup.Proofs.Scan.Lexing

/-!
# What one event does to a builder

`Builder.Step` lists what an event can do: nothing, add a leaf, open a tag, add
an empty element, or close the innermost tag. `step_cases` says that this is
all, and `run_induction` carries an invariant from step to step. A text without
issues has been read to its end and leaves nothing open, see
`exists_run_of_parseStrict`.
-/

namespace SkinMarkup

namespace Builder

/-- The tag that a builder opens at byte `offset` for a start tag with the given
content and attributes. -/
def newTag (s : Source) (b : Builder) (offset : Nat) (content source : Text)
    (attributes : List Attribute) : Tag :=
  let name := WrittenAttribute.elementName content
  let place := s.lines.locate offset
  let stop := offset + width source
  let uri := ((prefixOf name).bind fun p =>
    Namespace.resolve p (Attribute.declarations attributes :: b.scopes)).getD []
  ⟨⟨name, uri, attributes, offset, stop, stop, stop, false, place.line, place.column,
    nextLocation b.opened⟩, none, []⟩

theorem openTag_eq_ok {s : Source} {b : Builder} {offset : Nat} {content source : Text} {t : Tag}
    (h : b.openTag s offset content source = .ok t) :
    (b.opened = [] → b.root = none) ∧
      ∃ shown attributes, s.shown offset source = .ok shown ∧
        attributesOf offset shown content = .ok attributes ∧
        t = b.newTag s offset content source attributes := by
  unfold openTag at h
  split at h
  · cases h
  · next hroot =>
    refine ⟨fun hopened => ?_, ?_⟩
    · cases hr : b.root with
      | none => rfl
      | some r => simp [hopened, hr] at hroot
    · cases hshown : s.shown offset source with
      | error e => simp [hshown, bind, Except.bind] at h
      | ok shown =>
        simp only [hshown, bind, Except.bind] at h
        cases hattributes : attributesOf offset shown content with
        | error e =>
          rw [hattributes] at h
          cases h
        | ok attributes =>
          rw [hattributes] at h
          cases h
          exact ⟨shown, attributes, rfl, hattributes, rfl⟩

/-- What an event at byte `offset` makes of a builder. -/
inductive Step (s : Source) (b : Builder) (offset : Nat) : Event → Builder → Prop where
  /-- Blank text, text that finds no place, and asides change nothing. -/
  | skip {event : Event} (hkind : event.elementKind? = none) : Step s b offset event b
  /-- Text becomes the leaf of a tag without children. -/
  | leaf {event : Event} {t : Tag} {others : List Tag} (leaf : Leaf)
      (hkind : event.elementKind? = none) (hopened : b.opened = t :: others)
      (hcount : t.childCount = 0) (hcontent : leaf.content ≠ []) :
      Step s b offset event { b with opened := { t with leaf := some leaf } :: others }
  /-- A start tag opens a tag. -/
  | opening {content : Text} {t : Tag}
      (hopen : b.openTag s offset content (Event.opening content).source = .ok t) :
      Step s b offset (.opening content) { b with opened := t :: b.opened }
  /-- An empty element is complete at once. -/
  | empty {content : Text} {t : Tag}
      (hopen : b.openTag s offset content (Event.empty content).source = .ok t) :
      Step s b offset (.empty content)
        (b.attach { t with head := { t.head with selfClosing := true } })
  /-- An end tag closes the innermost open tag, which has its name. -/
  | closing {content : Text} {t : Tag} {others : List Tag} (hopened : b.opened = t :: others)
      (hname : t.name = Event.endName content) :
      Step s b offset (.closing content)
        ({ b with opened := others }.attach
          (closeTag offset (offset + width (Event.closing content).source) t))

theorem step_attachLeaf {s : Source} {b : Builder} {offset : Nat} {event : Event} (leaf : Leaf)
    (hkind : event.elementKind? = none) : Step s b offset event (b.attachLeaf leaf) := by
  unfold attachLeaf
  split
  · exact .skip hkind
  · next t others hopened =>
    split
    · next h => exact .leaf leaf hkind hopened h.1 h.2
    · exact .skip hkind

theorem step_stepText {s : Source} {b b' : Builder} {offset : Nat} {raw : Text}
    (h : b.stepText s offset raw = .ok b') : Step s b offset (.text raw) b' := by
  unfold stepText at h
  cases hshown : s.shown offset raw with
  | error e => simp [hshown, bind, Except.bind] at h
  | ok shown =>
    simp only [hshown, bind, Except.bind, pure, Except.pure] at h
    split at h
    · cases h
      exact .skip rfl
    · cases hcontent : unescape raw with
      | error e =>
        rw [hcontent] at h
        cases h
      | ok content =>
        rw [hcontent] at h
        change (if b.opened.isEmpty then Except.error _ else Except.ok _) = Except.ok b' at h
        split at h
        · cases h
        · cases h
          exact step_attachLeaf _ rfl

theorem step_stepClosing {s : Source} {b b' : Builder} {offset : Nat} {content : Text}
    (h : b.stepClosing s offset content (Event.closing content).source = .ok b') :
    Step s b offset (.closing content) b' := by
  unfold stepClosing at h
  dsimp only at h
  split at h
  · cases h
  · next t others hopened =>
    split at h
    · next hname =>
      cases h
      exact .closing hopened hname
    · cases h

/-- **Every successful step is one of these.** -/
theorem step_cases {s : Source} {b b' : Builder} {offset : Nat} {event : Event}
    (h : b.step s offset event = .ok b') : Step s b offset event b' := by
  cases event with
  | text raw => exact step_stepText h
  | opening content =>
    simp only [step] at h
    cases hopen : b.openTag s offset content (Event.opening content).source with
    | error e => simp [hopen, bind, Except.bind] at h
    | ok t =>
      simp only [hopen, bind, Except.bind, pure, Except.pure, Except.ok.injEq] at h
      exact h ▸ .opening hopen
  | empty content =>
    simp only [step] at h
    cases hopen : b.openTag s offset content (Event.empty content).source with
    | error e => simp [hopen, bind, Except.bind] at h
    | ok t =>
      simp only [hopen, bind, Except.bind, pure, Except.pure, Except.ok.injEq] at h
      exact h ▸ .empty hopen
  | closing content => exact step_stepClosing h
  | cdata content =>
    cases h
    exact step_attachLeaf _ rfl
  | aside raw =>
    cases h
    exact .skip rfl

/-! ## Runs -/

theorem run_cons_eq_none {s : Source} {b b' : Builder} {offset : Nat} {event : Event}
    {events : List Event} (h : b.run s offset (event :: events) = (b', none)) :
    ∃ next, Step s b offset event next ∧
      next.run s (offset + width event.source) events = (b', none) := by
  rw [run] at h
  split at h
  · cases h
  · next next hstep => exact ⟨next, step_cases hstep, h⟩

/-- **What every step keeps, a run keeps.** The invariant may speak about the
text read so far, and a step knows the event and where it was cut off. -/
theorem run_induction {s : Source} {t : Text} {Inv : Text → Builder → Prop}
    (hstep : ∀ {before : Text} {c : Char} {cs rest : Text} {event : Event} {b next : Builder},
      t = before ++ c :: cs → Event.next c cs = .ok (event, rest) → Inv before b →
      Step s b (width before) event next → Inv (before ++ event.source) next)
    {before rest : Text} {events : List Event} {b b' : Builder} (ht : t = before ++ rest)
    (hlex : Event.lexFrom (width before) rest = (events, none))
    (hrun : b.run s (width before) events = (b', none)) (hinv : Inv before b) : Inv t b' := by
  generalize hoffset : width before = offset at hlex hrun
  fun_induction Event.lexFrom offset rest generalizing before events b with
  | case1 offset =>
    cases hlex
    cases hrun
    rwa [ht, List.append_nil]
  | case2 offset c cs fault distance h => cases hlex
  | case3 offset c cs event rest hnext _ events' fault _ ih =>
    cases hlex
    subst hoffset
    obtain ⟨next, hone, hrun⟩ := run_cons_eq_none hrun
    refine ih ?_ (hstep ht hnext hinv hone) (width_append before event.source) ‹_› hrun
    rw [List.append_assoc, Event.next_source hnext, ht]

end Builder

/-! ## Texts without issues -/

/-- A text that starts without a byte order mark, that declares no document type
and has no quote after a backslash. Scanning and reading agree on it. -/
structure Plain (t : Text) : Prop where
  unmarked : t.head? ≠ some Source.mark
  noDoctype : NoDoctype t
  noEscapedQuote : NoEscapedQuote t

instance (t : Text) : Decidable (Plain t) :=
  decidable_of_iff (t.head? ≠ some Source.mark ∧ NoDoctype t ∧ NoEscapedQuote t)
    ⟨fun ⟨h₁, h₂, h₃⟩ => ⟨h₁, h₂, h₃⟩, fun ⟨h₁, h₂, h₃⟩ => ⟨h₁, h₂, h₃⟩⟩

theorem Source.body_ofText {t : Text} (h : t.head? ≠ some Source.mark) :
    (Source.ofText t).body = t := by
  simp [Source.body, Source.ofText, h]

/-- A strict reading succeeds exactly when no issue is found. -/
theorem parse_eq_ok_iff {options : ParseOptions} (hstrict : options.strict = true) {t : Text}
    {document : Document} :
    parse options t = .ok document ↔
      (Source.ofText t).read = .ok document ∧ document.issues = [] := by
  unfold parse
  cases hread : (Source.ofText t).read with
  | error failure => simp [bind, Except.bind]
  | ok found =>
    simp only [bind, Except.bind, hstrict, Except.ok.injEq]
    cases hissues : found.issues with
    | nil =>
      have hnil : (if options.places = true then [] else List.map Issue.withoutPlace []) = [] := by
        split <;> rfl
      rw [hnil]
      constructor
      · rintro ⟨⟩
        exact ⟨by rw [← hissues], rfl⟩
      · rintro ⟨rfl, h⟩
        simp [← hissues]
    | cons issue issues =>
      constructor
      · intro h
        split at h
        · cases h
        · next hno => split at hno <;> simp at hno
      · rintro ⟨rfl, h⟩
        rw [hissues] at h
        cases h

theorem Source.read_eq_ok_nil {s : Source} {root : Tag} :
    s.read = .ok ⟨root, []⟩ ↔ s.build = (⟨[], some root⟩, none) := by
  rcases hbuild : s.build with ⟨⟨opened, found⟩, failure⟩
  simp only [Source.read, hbuild]
  constructor
  · intro h
    cases failure with
    | some failure => cases failure <;> simp at h
    | none =>
      dsimp only at h
      split at h
      · next r hroot =>
        simp only [Except.ok.injEq, Document.mk.injEq, unclosedIssues, List.map_eq_nil_iff] at h
        obtain ⟨rfl, rfl⟩ := h
        simp only [Builder.rootClosedAt, Builder.closeAll, Option.or_none] at hroot
        rw [hroot]
      · simp at h
  · rintro ⟨⟩
    rfl

theorem Source.build_eq_none {s : Source} {b : Builder} :
    s.build = (b, none) ↔
      ∃ events, Event.lex s.body = (events, none) ∧ Builder.start.run s 0 events = (b, none) := by
  rcases hlex : Event.lex s.body with ⟨events, fault⟩
  rcases hrun : Builder.start.run s 0 events with ⟨found, failure⟩
  simp only [Source.build, hlex, hrun, Prod.mk.injEq]
  constructor
  · intro h
    cases failure with
    | some failure => cases h
    | none =>
      cases fault with
      | some fault => cases h
      | none =>
        cases h
        exact ⟨events, ⟨rfl, rfl⟩, hrun⟩
  · rintro ⟨events', ⟨rfl, rfl⟩, h⟩
    cases hrun.symm.trans h
    rfl

/-- **A text without issues is lexed and read to its end, and every tag is
closed.** -/
theorem parse_eq_ok_iff_run {options : ParseOptions} (hstrict : options.strict = true) {t : Text}
    (hmark : t.head? ≠ some Source.mark) {root : Tag} :
    parse options t = .ok ⟨root, []⟩ ↔
      ∃ events, Event.lex t = (events, none) ∧
        Builder.start.run (Source.ofText t) 0 events = (⟨[], some root⟩, none) := by
  rw [parse_eq_ok_iff hstrict, and_iff_left rfl, Source.read_eq_ok_nil, Source.build_eq_none,
    Source.body_ofText hmark]

theorem parseStrict_eq_ok_iff {t : Text} {root : Tag} :
    parseStrict t = .ok root ↔ parse ParseOptions.standard t = .ok ⟨root, []⟩ := by
  unfold parseStrict
  constructor
  · intro h
    cases hparse : parse ParseOptions.standard t with
    | error failure => simp [hparse, Except.map] at h
    | ok document =>
      have hissues := ((parse_eq_ok_iff rfl).mp hparse).2
      simp only [hparse, Except.map, Except.ok.injEq] at h
      cases document
      cases h
      cases hissues
      rfl
  · intro h
    rw [h]
    rfl

theorem exists_of_any_toOption {ε α : Type} {x : Except ε α} {p : α → Bool}
    (h : x.toOption.any p = true) : ∃ a, x = .ok a ∧ p a = true := by
  cases x with
  | error e => cases h
  | ok a => exact ⟨a, rfl, h⟩

theorem exists_run_of_parseStrict {t : Text} {root : Tag} (hmark : t.head? ≠ some Source.mark)
    (h : parseStrict t = .ok root) :
    ∃ events, Event.lex t = (events, none) ∧
      Builder.start.run (Source.ofText t) 0 events = (⟨[], some root⟩, none) :=
  (parse_eq_ok_iff_run rfl hmark).mp (parseStrict_eq_ok_iff.mp h)

/-- What every step keeps holds at the end of a text without issues. -/
theorem parseStrict_induction {t : Text} {root : Tag} (Inv : Text → Builder → Prop)
    (hmark : t.head? ≠ some Source.mark) (h : parseStrict t = .ok root)
    (hstart : Inv [] Builder.start)
    (hstep : ∀ {before : Text} {c : Char} {cs rest : Text} {event : Event} {b next : Builder},
      t = before ++ c :: cs → Event.next c cs = .ok (event, rest) → Inv before b →
      Builder.Step (Source.ofText t) b (width before) event next →
      Inv (before ++ event.source) next) :
    Inv t ⟨[], some root⟩ := by
  obtain ⟨events, hlex, hrun⟩ := exists_run_of_parseStrict hmark h
  have ht : t = [] ++ t := rfl
  exact Builder.run_induction hstep ht hlex hrun hstart

end SkinMarkup
