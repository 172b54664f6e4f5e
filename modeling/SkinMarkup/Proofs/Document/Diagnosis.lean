import SkinMarkup.Proofs.Document.Lenient
import SkinMarkup.Proofs.Document.Unfinished

/-!
# What the issues of a document say

Reading a text stops at an issue, finds no element, or comes to its end, where some
tags may still be open. These are closed at the end of the text and are a chain from the
root in which each is the last child of the one before
(`Builder.Unfinished.exists_openChain`).

`Diagnosis` lists what can be the case, and `diagnosis_of_unmarked` says that every text
without a byte order mark has one of them.
-/

namespace SkinMarkup

/-! ## Tags that are left open -/

namespace Tag

/-- A tag whose start tag is among the events and not its end tag: it stops at byte
`stop`. -/
structure LeftOpen (events : List Event) (stop : Nat) (tag : Tag) : Prop where
  starts : ∃ before content after, events = before ++ .opening content :: after ∧
    tag.StartsBehind before false content ∧ Event.ClosesOwn after
  endTagStart : tag.head.endTagStart = stop
  stop : tag.head.stop = stop

/-- The tags that are left open, from `tag` inwards: each is the last child of the one
before. All others have ended. -/
inductive OpenChain (events : List Event) (stop : Nat) : Tag → List Tag → Prop where
  | last {tag : Tag} (hopen : tag.LeftOpen events stop)
      (hended : Everywhere (Ended events) tag.tags) : OpenChain events stop tag [tag]
  | cons {tag child : Tag} {others chain : List Tag} (hopen : tag.LeftOpen events stop)
      (htags : tag.tags = others ++ [child]) (hended : Everywhere (Ended events) others)
      (hchild : OpenChain events stop child chain) : OpenChain events stop tag (tag :: chain)

variable {events : List Event} {stop : Nat} {tag : Tag} {chain : List Tag} {t : Text}

theorem OpenChain.leftOpen (h : OpenChain events stop tag chain) :
    ∀ x ∈ chain, x.LeftOpen events stop := by
  induction h with
  | last hopen _ => exact List.forall_mem_singleton.mpr hopen
  | cons hopen _ _ _ ih => exact List.forall_mem_cons.mpr ⟨hopen, ih⟩

/-- A tag that is left open starts at a bracket of the text. -/
theorem LeftOpen.bracket (h : tag.LeftOpen events stop) (hlex : Event.lex t = (events, none)) :
    ∃ before after, t = before ++ '<' :: after ∧ width before = tag.head.start := by
  obtain ⟨before, content, after, rfl, hstarts, -⟩ := h.starts
  refine ⟨Event.sources before, content ++ '>' :: Event.sources after, ?_, hstarts.start.symm⟩
  calc t = Event.sources (before ++ .opening content :: after) :=
        (Event.sources_of_lexFrom hlex).symm
    _ = Event.sources before ++ ((Event.opening content).source ++ Event.sources after) :=
        Event.sources_append before (.opening content :: after)
    _ = _ := by simp [Event.source]

end Tag

namespace Source

/-- The issue that a tag is left open. -/
def unclosedIssue (s : Source) (tag : Tag) : Issue :=
  .unclosed tag.name (s.place tag.head.start)

end Source

/-! ## The end of the text -/

namespace Builder

open Event (ClosesOwn)
open Tag (Ended LeftOpen OpenChain everywhere_nil everywhere_append)

variable {s : Source} {events before rest : List Event} {stop : Nat} {content : Text} {tag : Tag}
  {opened others : List Tag}

/-- A tag that is closed at the end of the text has been left open. -/
theorem leftOpen_closeTag (hevents : events = before ++ .opening content :: rest)
    (hstarts : tag.StartsBehind before false content) (hrest : ClosesOwn rest) (ts : List Tag)
    (stop : Nat) : LeftOpen events stop (closeTag stop stop { tag with tags := ts }) :=
  ⟨⟨before, content, rest, hevents, ⟨hstarts.name, hstarts.start, hstarts.startTagEnd,
    hstarts.selfClosing⟩, hrest⟩, rfl, rfl⟩

/-- The tags around a chain make it longer. -/
theorem exists_openChain_closeAll {child : Tag} {chain : List Tag}
    (h : Unfinished before opened) (hevents : events = before ++ rest) (hrest : ClosesOwn rest)
    (hchain : OpenChain events stop child chain) :
    ∃ root longer, closeAll stop (some child) opened = some root ∧
      OpenChain events stop root longer ∧
      longer.map s.unclosedIssue =
        (opened.map s.unclosedIssue).reverse ++ chain.map s.unclosedIssue := by
  induction h generalizing rest child chain with
  | nil => exact ⟨child, chain, rfl, hchain, rfl⟩
  | @cons before inner content tag others hothers hinner hstarts hended ih =>
    rw [List.append_assoc, List.cons_append] at hevents
    have hown := hinner.closesOwn_append hrest
    have hopen := leftOpen_closeTag hevents hstarts hown (tag.tags ++ [child]) stop
    have hended : Tag.Everywhere (Ended events) tag.tags := by
      have hall := Tag.everywhere_ended_append hended rest
      rwa [List.append_assoc, List.cons_append, ← hevents] at hall
    obtain ⟨root, longer, hroot, hlonger, hissues⟩ :=
      ih hevents (hown.cons_opening content) (.cons hopen rfl hended hchain)
    refine ⟨root, longer, hroot, hlonger, ?_⟩
    rw [hissues, List.map_cons, List.map_cons, List.reverse_cons, List.append_assoc]
    rfl

/-- **The tags that are closed at the end of the text are a chain.** Their issues are
those of the chain from its end. -/
theorem Unfinished.exists_openChain (h : Unfinished events (tag :: others)) (s : Source)
    (stop : Nat) :
    ∃ root chain, closeAll stop none (tag :: others) = some root ∧
      OpenChain events stop root chain ∧ chain.length = (tag :: others).length ∧
      s.unclosedIssues ⟨tag :: others, none⟩ = chain.reverse.map s.unclosedIssue := by
  cases h with
  | @cons before inner content _ _ hothers hinner hstarts hended =>
    have hown : ClosesOwn inner := ⟨0, hinner⟩
    have hopen := leftOpen_closeTag rfl hstarts hown (tag.tags ++ []) stop
    have hended : Tag.Everywhere (Ended (before ++ .opening content :: inner)) (tag.tags ++ []) :=
      everywhere_append.mpr ⟨hended, everywhere_nil _⟩
    obtain ⟨root, chain, hroot, hchain, hissues⟩ :=
      exists_openChain_closeAll (s := s) hothers rfl (hown.cons_opening content)
        (.last hopen hended)
    have hall : chain.map s.unclosedIssue = ((tag :: others).map s.unclosedIssue).reverse := by
      show _ = (s.unclosedIssue tag :: others.map s.unclosedIssue).reverse
      rw [hissues, List.reverse_cons]
      rfl
    refine ⟨root, chain, hroot, hchain, ?_, ?_⟩
    · have hcount := congrArg List.length hall
      rwa [List.length_reverse, List.length_map, List.length_map] at hcount
    · rw [List.map_reverse, hall, List.reverse_reverse]
      rfl

end Builder

/-! ## Issues that stop reading -/

/-- An issue at which reading stops, with its place. -/
inductive Issue.StopsReading (s : Source) : Issue → Prop where
  | malformed (cause : Malformation) (offset : Nat) :
      StopsReading s (.malformed cause (s.place offset))
  | multipleRoots (offset : Nat) : StopsReading s (.multipleRoots (s.place offset))
  | textOutsideRoot (offset : Nat) : StopsReading s (.textOutsideRoot (s.place offset))

theorem Source.eq_misaligned_of_shown {s : Source} {offset : Nat} {raw : Text}
    {failure : ParseFailure} (h : s.shown offset raw = .error failure) : failure = .misaligned := by
  unfold shown at h
  split at h
  · cases h
  · cases h
    rfl

namespace Builder

variable {s : Source} {b : Builder} {offset : Nat} {issue : Issue}

theorem stopsReading_of_openTag {content source : Text}
    (h : b.openTag s offset content source = .error (.issue issue)) : issue.StopsReading s := by
  unfold openTag at h
  split at h
  · cases h
    exact .multipleRoots offset
  · simp only [bind, Except.bind] at h
    split at h
    · next failure hshown =>
      cases h
      cases Source.eq_misaligned_of_shown hshown
    · next shown hshown =>
      cases hattributes : attributesOf offset shown content with
      | error cause =>
        rw [hattributes] at h
        cases h
        exact .malformed cause offset
      | ok attributes =>
        rw [hattributes] at h
        cases h

theorem stopsReading_of_stepText {raw : Text}
    (h : b.stepText s offset raw = .error (.issue issue)) : issue.StopsReading s := by
  simp only [stepText, bind, Except.bind, pure, Except.pure] at h
  split at h
  · next failure hshown =>
    cases h
    cases Source.eq_misaligned_of_shown hshown
  · split at h
    · cases h
    · cases hcontent : unescape raw with
      | error fault =>
        rw [hcontent] at h
        cases h
        exact .malformed (.textContent fault) offset
      | ok content =>
        rw [hcontent] at h
        change (if b.opened.isEmpty then Except.error _ else Except.ok _) = _ at h
        split at h
        · cases h
          exact .textOutsideRoot offset
        · cases h

theorem stopsReading_of_step {event : Event} (h : b.step s offset event = .error (.issue issue)) :
    issue.StopsReading s := by
  cases event with
  | text raw => exact stopsReading_of_stepText h
  | opening content =>
    simp only [step, bind, Except.bind] at h
    split at h
    · next hopen =>
      cases h
      exact stopsReading_of_openTag hopen
    · cases h
  | empty content =>
    simp only [step, bind, Except.bind] at h
    split at h
    · next hopen =>
      cases h
      exact stopsReading_of_openTag hopen
    · cases h
  | closing content =>
    simp only [step, stepClosing] at h
    split at h
    · cases h
      exact .malformed _ offset
    · split at h
      · cases h
      · cases h
        exact .malformed _ offset
  | cdata content => cases h
  | aside raw => cases h

theorem stopsReading_of_run {events : List Event}
    (h : (b.run s offset events).2 = some (.issue issue)) : issue.StopsReading s := by
  induction events generalizing b offset with
  | nil => cases h
  | cons event events ih =>
    rw [run] at h
    split at h
    · next failure hstep =>
      cases h
      exact stopsReading_of_step hstep
    · exact ih h

end Builder

theorem Source.stopsReading_of_build {s : Source} {issue : Issue}
    (h : s.build.2 = some (.issue issue)) : issue.StopsReading s := by
  unfold build at h
  dsimp only at h
  split at h
  · next b failure hrun =>
    cases h
    exact Builder.stopsReading_of_run (congrArg Prod.snd hrun)
  · split at h
    · next fault offset hfault =>
      cases h
      exact .malformed (.markup fault) offset
    · cases h

/-! ## Documents -/

/-- What the issues of a document say about its text and its tree. -/
inductive Diagnosis (t : Text) : Document → Prop where
  /-- Without issues, the text is read to its end and every tag has ended. -/
  | sound {events : List Event} {root : Tag} (hread : (Source.ofText t).build.2 = none)
      (hlex : Event.lex t = (events, none)) (hbalanced : Event.Balanced events)
      (hended : Tag.Everywhere (Tag.Ended events) [root]) : Diagnosis t ⟨root, []⟩
  /-- Where reading stops, the only issue says why. -/
  | stopped {root : Tag} {issue : Issue} (hread : (Source.ofText t).build.2 = some (.issue issue))
      (hissue : issue.StopsReading (Source.ofText t)) : Diagnosis t ⟨root, [issue]⟩
  /-- The text is read to its end and has no element. -/
  | empty {events : List Event} (hread : (Source.ofText t).build.2 = none)
      (hlex : Event.lex t = (events, none)) (hnone : Event.tokensFrom 0 events = []) :
      Diagnosis t ⟨Tag.unplaced [], [.emptyDocument]⟩
  /-- The text is read to its end, where a chain of tags is open. They are reported from
  the innermost outwards. -/
  | unclosed {events : List Event} {root : Tag} {chain : List Tag}
      (hread : (Source.ofText t).build.2 = none) (hlex : Event.lex t = (events, none))
      (hdepth : Event.depthAfter 0 events = some chain.length)
      (hchain : Tag.OpenChain events (width t) root chain)
      (hbrackets : ∀ tag ∈ chain, ∃ before after, t = before ++ '<' :: after ∧
        width before = tag.head.start) :
      Diagnosis t ⟨root, chain.reverse.map (Source.ofText t).unclosedIssue⟩

variable {t : Text} {document : Document}

/-- **Every document has a diagnosis.** -/
theorem Source.diagnosis_of_read (hmark : t.head? ≠ some Source.mark)
    (h : (ofText t).read = .ok document) : Diagnosis t document := by
  rcases hbuild : (ofText t).build with ⟨b, failure⟩
  have hread : (ofText t).build.2 = failure := congrArg Prod.snd hbuild
  simp only [read, hbuild] at h
  cases failure with
  | some failure =>
    cases failure with
    | misaligned => cases h
    | issue issue =>
      cases h
      exact .stopped hread (stopsReading_of_build hread)
  | none =>
    obtain ⟨events, hlex, hrun⟩ := build_eq_none.mp hbuild
    rw [body_ofText hmark] at hlex
    obtain ⟨hgrown, hregular⟩ := Builder.run_grown Builder.grown_start Builder.regular_start hrun
    rw [List.nil_append] at hgrown
    obtain ⟨opened, root⟩ := b
    have hended := hgrown.root
    have hopen : Builder.Unfinished events opened := hgrown.opened
    have hdepth := hopen.depthAfter_eq
    cases opened with
    | nil =>
      cases root with
      | none =>
        cases h
        have hmarks := (Builder.run_marks_eq Builder.regular_start hrun).1
        have hnone : (Event.tokensFrom 0 events).map Token.mark = [] := hmarks.symm
        exact .empty hread hlex (List.map_eq_nil_iff.mp hnone)
      | some root =>
        cases h
        exact .sound hread hlex hdepth hended
    | cons tag others =>
      cases hregular.root_eq_none rfl
      obtain ⟨root, chain, hroot, hchain, hlength, hissues⟩ :=
        hopen.exists_openChain (ofText t) (width t)
      have htext : (ofText t).text = t := rfl
      simp only [Builder.rootClosedAt, Option.none_or, htext, hroot] at h
      cases h
      rw [← hlength] at hdepth
      rw [hissues]
      refine .unclosed hread hlex hdepth hchain fun x hx => ?_
      exact (hchain.leftOpen x hx).bracket hlex

/-- A strict reading fails with the first issue, and a lenient one lists them. -/
theorem parse_of_read {strict cached : Bool} (h : (Source.ofText t).read = .ok document) :
    parse ⟨strict, true, cached⟩ t =
      match strict, document.issues with
      | true, issue :: _ => .error (.issue issue)
      | _, _ => .ok document := by
  unfold parse
  rw [h]
  rfl

/-- **A lenient reading says what is wrong.** A text without a byte order mark has a
tree whose issues are one of these: none, the one at which reading stopped, that there
is no element, or the tags that are open at the end. A strict reading fails with the
first of them, and without issues it gives the same tree. -/
theorem diagnosis_of_unmarked (hmark : t.head? ≠ some Source.mark) (cached : Bool) :
    ∃ document, parse ⟨false, true, cached⟩ t = .ok document ∧ Diagnosis t document ∧
      ∀ cached', parse ⟨true, true, cached'⟩ t =
        match document.issues with
        | [] => .ok document
        | issue :: _ => .error (.issue issue) := by
  obtain ⟨issues, hread⟩ := Source.read_of_unmarked hmark
  refine ⟨_, parse_of_read hread, Source.diagnosis_of_read hmark hread, fun cached' => ?_⟩
  rw [parse_of_read hread]
  cases issues with
  | nil => rfl
  | cons issue issues => rfl

/-- A text that breaks off in three elements, behind an empty one and one that has
ended. -/
theorem diagnosis_of_unclosed :
    let t := "<a>x<b/><c d='>'><e></e>\n<f>".toList
    t.head? ≠ some Source.mark ∧
    ∃ document, parse ⟨false, true, false⟩ t = .ok document ∧ document.issues.length = 3 ∧
      Diagnosis t document ∧ parse ⟨true, true, false⟩ t =
        .error (.issue (.unclosed "f".toList (some ⟨25, 2, 1⟩))) := by
  intro t
  have hmark : t.head? ≠ some Source.mark := by decide
  obtain ⟨document, hparse, hdiagnosis, hstrict⟩ := diagnosis_of_unmarked hmark false
  have hany : (parse ⟨false, true, false⟩ t).toOption.any (fun document =>
      decide (document.issues.length = 3 ∧
        document.issues.head? = some (.unclosed "f".toList (some ⟨25, 2, 1⟩)))) = true := by
    decide +kernel
  obtain ⟨found, hfound, hissues⟩ := exists_of_any_toOption hany
  cases hparse.symm.trans hfound
  obtain ⟨hlength, hfirst⟩ := of_decide_eq_true hissues
  obtain ⟨rest, hcons⟩ := List.head?_eq_some_iff.mp hfirst
  refine ⟨hmark, document, hparse, hlength, hdiagnosis, ?_⟩
  rw [hstrict false, hcons]

end SkinMarkup
