import SkinMarkup.Proofs.State.Actions
import SkinMarkup.Proofs.State.BlankTag
import SkinMarkup.Proofs.State.Copying
import SkinMarkup.Proofs.State.Rewritten

/-!
# Documents with a blank state

Creating a blank state goes through the tokens of a document with a flag for every
open element, which says whether the elements in it stand directly below the root.
For a document this comes to the same as deciding by where the elements of its
markup stand: `Markup.createState_blank_source`. The outcome is a document again,
and it has the same sites (`Markup.sites_blanked`).
-/

namespace SkinMarkup

namespace Markup

variable {w : Markup} {d : Dialect} {allStates : List Text} {state : Text} {standing : Standing}
  {levels : List Bool} {level : Nat}

/-! ## Markup -/

/-- The content of a start tag in a document with a new blank state. -/
def blankContent (d : Dialect) (allStates : List Text) (state : Text) (standing : Standing)
    (content : Text) : Text :=
  if d.isScoped standing (WrittenAttribute.elementName content) then
    ((StartTag.ofContent content).scopedOut allStates state).content
  else content

/-- Markup with a new blank state. -/
def blanked (d : Dialect) (allStates : List Text) (state : Text) (standing : Standing) :
    Markup → Markup
  | nil => nil
  | inert event isInert rest => inert event isInert (rest.blanked d allStates state standing)
  | empty content rest =>
    empty (blankContent d allStates state standing content) (rest.blanked d allStates state standing)
  | node content inside close rest =>
    node (blankContent d allStates state standing content)
      (inside.blanked d allStates state (d.below (WrittenAttribute.elementName content) standing))
      close (rest.blanked d allStates state standing)

theorem blankContent_of_ne (h : standing ≠ .direct) (content : Text) :
    blankContent d allStates state standing content = content := by
  rw [blankContent, Dialect.isScoped, decide_eq_false h]
  rfl

/-- What stands deeper is left alone. -/
theorem blanked_deeper (w : Markup) : w.blanked d allStates state .deeper = w := by
  induction w with
  | nil => rfl
  | inert event hinert rest ih => rw [blanked, ih]
  | empty content rest ih => rw [blanked, ih, blankContent_of_ne (by decide)]
  | node content inside close rest ihinside ih =>
    rw [blanked, ih, blankContent_of_ne (by decide)]
    exact congrArg (fun inside => node content inside close rest) ihinside

/-- A start tag that a blank state can be kept out of. -/
structure Hideable (d : Dialect) (state : Text) (p : Site (Bool × Text)) (st : StartTag) : Prop where
  content : st.content = p.element.2
  ready : st.Ready
  fresh : ¬ state <:+: st.content
  solid : d.isScoped p.standing st.name = true → st.pieces = [] → st.Solid

theorem Hideable.blankContent_eq {p : Site (Bool × Text)} {st : StartTag} (h : Hideable d state p st)
    (allStates : List Text) :
    blankContent d allStates state p.standing p.element.2 =
      if d.isScoped p.standing st.name then (st.scopedOut allStates state).content
      else st.content := by
  rw [blankContent, ← h.content, h.ready.listed.tidy.ofContent_content,
    h.ready.listed.tidy.regular.elementName_content]

/-- Markup that a blank state can be created in. -/
def AllHideable (d : Dialect) (state : Text) (sites : List (Site (Bool × Text))) : Prop :=
  ∀ p ∈ sites, ∃ st, Hideable d state p st

section

variable (hstates : ∀ s ∈ allStates, isStateName s = true) (hstate : isStateName state = true)

include hstates hstate

theorem Hideable.replaces {p : Site (Bool × Text)} {st : StartTag} (h : Hideable d state p st) :
    Replaces p.element.1 p.element.2 (blankContent d allStates state p.standing p.element.2) := by
  rw [h.blankContent_eq, ← h.content]
  split
  · exact (h.ready.successor_scopedOut hstates hstate).replaces h.ready _
  · exact h.ready.successor.replaces h.ready _

/-- Start tags are rewritten where they stand. -/
theorem AllHideable.rewritten (h : AllHideable d state (w.sites d standing level)) :
    Rewritten Replaces w (w.blanked d allStates state standing) := by
  induction w generalizing standing level with
  | nil => exact .nil
  | inert event hinert rest ih => exact .inert (ih h)
  | empty content rest ih =>
    obtain ⟨⟨st, hst⟩, hrest⟩ := List.forall_mem_cons.mp h
    exact .empty (hst.replaces hstates hstate) (ih hrest)
  | node content inside close rest ihinside ih =>
    obtain ⟨⟨st, hst⟩, hothers⟩ := List.forall_mem_cons.mp h
    obtain ⟨hinside, hrest⟩ := List.forall_mem_append.mp hothers
    exact .node (hst.replaces hstates hstate) (ihinside hinside) (ih hrest)

/-- **A document with a new blank state is a document.** -/
theorem Document.blanked (h : w.Document) (hsites : AllHideable d state (w.sites d .root 0)) :
    (w.blanked d allStates state .root).Document :=
  h.rewritten (hsites.rewritten hstates hstate)

/-- **Elements stay where they stand.** -/
theorem sites_blanked (h : AllHideable d state (w.sites d standing level)) :
    (w.blanked d allStates state standing).sites d standing level =
      (w.sites d standing level).map fun p =>
        ⟨p.level, p.standing, p.element.1, blankContent d allStates state p.standing p.element.2⟩ := by
  induction w generalizing standing level with
  | nil => rfl
  | inert event hinert rest ih => exact ih h
  | empty content rest ih =>
    rw [Markup.blanked, sites, sites, ih (List.forall_mem_cons.mp h).2, List.map_cons]
  | node content inside close rest ihinside ih =>
    obtain ⟨⟨st, hst⟩, hothers⟩ := List.forall_mem_cons.mp h
    obtain ⟨hinside, hrest⟩ := List.forall_mem_append.mp hothers
    have hname := (hst.replaces hstates hstate).name
    dsimp only at hname
    rw [Markup.blanked, sites, sites, hname, ihinside hinside, ih hrest, List.map_cons,
      List.map_append]

end

/-- The root stays as it is. -/
theorem first?_blanked {selfClosing : Bool} {content : Text}
    (hfirst : w.first? = some (selfClosing, content)) (d : Dialect) (allStates : List Text)
    (state : Text) :
    (w.blanked d allStates state .root).first? = some (selfClosing, content) := by
  induction w with
  | nil => cases hfirst
  | inert event hinert rest ih => exact ih hfirst
  | empty other rest ih =>
    cases hfirst
    rw [blanked, blankContent_of_ne (by decide)]
    rfl
  | node other inside close rest ihinside ih =>
    cases hfirst
    rw [blanked, blankContent_of_ne (by decide)]
    rfl

/-! ## Tokens -/

/-- Keeping a component out of a state gives its token another text, or leaves it
as it is. -/
theorem scopeOut_cases {st : StartTag} (h : st.Ready) (hne : allStates ≠ [])
    (hfresh : ¬ state <:+: st.content) (hend : st.pieces = [] → st.Solid) (selfClosing : Bool) :
    (scopeOut (.ofStart selfClosing) allStates state (st.text selfClosing) = none ∧
        (st.scopedOut allStates state).content = st.content) ∨
      scopeOut (.ofStart selfClosing) allStates state (st.text selfClosing) =
        some (Event.start selfClosing (st.scopedOut allStates state).content).source := by
  have htext := h.scopeOut_text hne hfresh hend selfClosing
  rw [editOr] at htext
  cases hscope : scopeOut (.ofStart selfClosing) allStates state (st.text selfClosing) with
  | none =>
    rw [hscope, Option.getD_none, StartTag.text, StartTag.text] at htext
    exact Or.inl ⟨rfl, (List.append_cancel_right (List.cons.inj htext).2).symm⟩
  | some tag =>
    rw [hscope, Option.getD_some] at htext
    exact Or.inr (by rw [htext, StartTag.source_start])

/-- Nothing changes in a block of declarations. -/
theorem blanked_of_isBlock (allStates : List Text) (state : Text) (standing : Standing)
    {content : Text} (hblock : d.isBlock content = true) :
    blankContent d allStates state standing content = content ∧
      d.below (WrittenAttribute.elementName content) standing = .deeper := by
  rw [Dialect.isBlock, beq_iff_eq] at hblock
  constructor
  · rw [blankContent, Dialect.isScoped]
    simp [hblock]
  · unfold Dialect.below
    split <;> simp [hblock]

/-- What becomes of the token of a start tag: the flags behind it, and its
text. -/
theorem Hideable.revise_start {p : Site (Bool × Text)} {st : StartTag} (h : Hideable d state p st)
    (hstanding : p.standing = Standing.ofLevels levels) (hne : allStates ≠ []) {token : Token}
    (htoken : IsToken token (.ofStart p.element.1) (.start p.element.1 p.element.2)) :
    (d.isBlock p.element.2 = true ∧ blankAction d allStates state levels token = (levels, .pass)) ∨
      ∀ (gap : Text) (others : List Segment),
        Segment.revise (blankAction d allStates state) levels (⟨gap, token⟩ :: others) =
          gap ++ (Event.start p.element.1
            (blankContent d allStates state p.standing p.element.2)).source ++
            Segment.revise (blankAction d allStates state) (if p.element.1 then levels else
              decide (d.below (WrittenAttribute.elementName p.element.2) p.standing = .direct) ::
                levels) others := by
  have htidy := h.ready.listed.tidy
  have hcontent := h.blankContent_eq allStates
  obtain ⟨plevel, standing, selfClosing, content⟩ := p
  obtain rfl : st.content = content := h.content
  dsimp only at hstanding htoken hcontent ⊢
  subst hstanding
  have hname : token.name = st.name := htidy.name_of_isToken htoken
  have hstart := isStart_of_isToken selfClosing htoken
  have hopening : token.kind = .opening ↔ ¬ selfClosing = true := by
    rw [htoken.kind]
    cases selfClosing <;> decide
  rw [htidy.regular.isBlock_content, ← hname, htidy.regular.elementName_content, ← hname]
  by_cases hblock : token.localName = d.declarations
  · exact Or.inl ⟨beq_iff_eq.mpr hblock, blankAction_of_declarations hstart hblock levels⟩
  · refine Or.inr fun gap others => ?_
    obtain ⟨action, hact, hcases⟩ := blankAction_of_isStart allStates state hstart hblock levels
    rw [if_congr hopening rfl rfl, ite_not] at hact
    rw [hname, htoken.kind, htoken.text, StartTag.source_start] at hcases
    rcases hcases with ⟨rfl, hnone⟩ | ⟨tag, rfl, hscoped, hscope⟩
    · have hsame : blankContent d allStates state (Standing.ofLevels levels) st.content =
          st.content := by
        rw [hcontent]
        split
        · next hscoped =>
          rcases scopeOut_cases h.ready hne h.fresh (h.solid hscoped) selfClosing with
            ⟨-, hsame⟩ | hsome
          · exact hsame
          · cases (hnone hscoped).symm.trans hsome
        · rfl
      rw [revise_of_keep htoken.text hact, hsame]
    · rw [Segment.revise_of_replace hact, hcontent, if_pos hscoped]
      rcases scopeOut_cases h.ready hne h.fresh (h.solid hscoped) selfClosing with
        ⟨hnone, -⟩ | hsome
      · cases hscope.symm.trans hnone
      · cases hscope.symm.trans hsome
        rfl

/-- Revising the segments of markup creates a blank state in it. The flags are as
before behind it. -/
def BlanksAs (d : Dialect) (allStates : List Text) (state : Text) (levels : List Bool) (w : Markup)
    (gap : Text) (segments : List Segment) (gap' : Text) (segments' : List Segment) : Prop :=
  ∃ written,
    gap ++ (w.blanked d allStates state (Standing.ofLevels levels)).source = written ++ gap' ∧
    Segment.revise (blankAction d allStates state) levels segments =
      written ++ Segment.revise (blankAction d allStates state) levels segments'

namespace BlanksAs

variable {gap gap' gap₁ content close : Text} {segments' inner others : List Segment}
  {token token' : Token} {inside rest : Markup}

theorem empty (htoken : IsToken token .selfClosing (.empty content)) {st : StartTag}
    (hst : Hideable d state ⟨level, .ofLevels levels, true, content⟩ st) (hne : allStates ≠ [])
    (hrest : BlanksAs d allStates state levels rest [] others gap' segments') :
    BlanksAs d allStates state levels (empty content rest) gap (⟨gap, token⟩ :: others) gap'
      segments' := by
  obtain ⟨written, hsource, hwritten⟩ := hrest
  rw [List.nil_append] at hsource
  refine ⟨gap ++ (Event.empty (blankContent d allStates state (Standing.ofLevels levels)
    content)).source ++ written, by rw [blanked, source_empty, hsource]; simp, ?_⟩
  rcases hst.revise_start rfl hne htoken with ⟨hblock, hpass⟩ | hrevise
  · rw [htoken.revise_of_pass hpass, hwritten, (blanked_of_isBlock allStates state _ hblock).1]
    simp
  · rw [hrevise, if_pos rfl, hwritten]
    simp [Event.start]

theorem node (htoken : IsToken token .opening (.opening content)) {st : StartTag}
    (hst : Hideable d state ⟨level, .ofLevels levels, false, content⟩ st) (hne : allStates ≠ [])
    (hspans : inside.Spans [] inner gap₁ (⟨gap₁, token'⟩ :: others))
    (hinside : BlanksAs d allStates state
      (decide (d.below (WrittenAttribute.elementName content) (.ofLevels levels) = .direct) :: levels)
      inside [] inner gap₁ (⟨gap₁, token'⟩ :: others))
    (hclose : IsToken token' .closing (.closing close))
    (hrest : BlanksAs d allStates state levels rest [] others gap' segments') :
    BlanksAs d allStates state levels (node content inside close rest) gap (⟨gap, token⟩ :: inner)
      gap' segments' := by
  obtain ⟨written, hsource, hwritten⟩ := hrest
  rw [List.nil_append] at hsource
  rcases hst.revise_start rfl hne htoken with ⟨hblock, hpass⟩ | hrevise
  · obtain ⟨hsame, hbelow⟩ := blanked_of_isBlock allStates state (.ofLevels levels) hblock
    dsimp only at hsame hbelow
    refine ⟨gap ++ (Event.opening content).source ++ inside.source ++ (Event.closing close).source ++
      written, ?_, ?_⟩
    · rw [blanked, source_node, hsource, hsame, hbelow, blanked_deeper]
      simp
    · rw [hspans.revise_of_pass htoken hclose hpass, hwritten]
      simp
  · obtain ⟨written₁, hsource₁, hwritten₁⟩ := hinside
    rw [List.nil_append, Standing.ofLevels_cons] at hsource₁
    have hkeep : blankAction d allStates state (decide (d.below (WrittenAttribute.elementName
        content) (Standing.ofLevels levels) = .direct) :: levels) token' = (levels, .keep) := by
      rw [blankAction_of_not_isStart hclose.isStart_closing, if_pos hclose.kind]
      rfl
    refine ⟨gap ++ (Event.opening (blankContent d allStates state (Standing.ofLevels levels)
      content)).source ++ written₁ ++ gap₁ ++ (Event.closing close).source ++ written, ?_, ?_⟩
    · rw [blanked, source_node, hsource, hsource₁]
      simp
    · rw [hrevise, if_neg Bool.false_ne_true, hwritten₁, revise_of_keep hclose.text hkeep, hwritten]
      simp [Event.start]

end BlanksAs

/-- **Revising the segments of markup creates a blank state in it.** -/
theorem Spans.blanksAs {gap gap' : Text} {segments segments' : List Segment}
    (h : w.Spans gap segments gap' segments')
    (hsites : AllHideable d state (w.sites d (Standing.ofLevels levels) level))
    (hne : allStates ≠ []) : BlanksAs d allStates state levels w gap segments gap' segments' := by
  induction w generalizing gap segments gap' segments' levels level with
  | nil =>
    obtain ⟨rfl, rfl⟩ := h
    exact ⟨[], by simp [blanked], rfl⟩
  | inert event hinert rest ih =>
    rw [Spans] at h
    split at h
    · obtain ⟨written, hsource, hwritten⟩ := ih h hsites
      exact ⟨written, by rw [← hsource]; simp [blanked], hwritten⟩
    · obtain ⟨token, others, rfl, htoken, htext, h⟩ := h
      obtain ⟨written, hsource, hwritten⟩ := ih h hsites
      rw [List.nil_append] at hsource
      have hclosing : token.kind ≠ .closing := by
        intro hkind
        rw [Token.isElement, hkind] at htoken
        cases htoken
      have hkeep : blankAction d allStates state levels token = (levels, .keep) := by
        rw [blankAction_of_not_isStart (Token.isStart_eq_false htoken), if_neg hclosing]
      refine ⟨gap ++ event.source ++ written, ?_, ?_⟩
      · rw [blanked, source_inert, hsource]
        simp
      · rw [revise_of_keep htext hkeep, hwritten]
        simp
  | empty content rest ih =>
    obtain ⟨token, others, rfl, htoken, h⟩ := h
    obtain ⟨⟨st, hst⟩, hrest⟩ := List.forall_mem_cons.mp hsites
    exact .empty htoken hst hne (ih h hrest)
  | node content inside close rest ihinside ih =>
    obtain ⟨token, inner, gap₁, token', others, rfl, htoken, hinside, hclose, h⟩ := h
    obtain ⟨⟨st, hst⟩, hothers⟩ := List.forall_mem_cons.mp hsites
    obtain ⟨hinsideSites, hrestSites⟩ := List.forall_mem_append.mp hothers
    rw [← Standing.ofLevels_cons d _ _ levels] at hinsideSites
    exact .node htoken hst hne hinside (ihinside hinside hinsideSites) hclose (ih h hrestSites)

/-- **Creating a blank state in a document creates it in the markup** and declares
it. -/
theorem Document.createState_blank_source {selfClosing : Bool} {st : StartTag} (h : w.Document)
    (hsites : AllHideable d state (w.sites d .root 0))
    (hstates : ∀ s ∈ allStates, isStateName s = true) (hne : allStates ≠ [])
    (hstate : isStateName state = true) (hfirst : w.first? = some (selfClosing, st.content))
    (hroot : st.Root state) :
    createState d allStates state none w.source =
      ⟨((w.blanked d allStates state .root).declared state).source, true⟩ := by
  obtain ⟨hspans, hclean⟩ := spans_scan h.lexed h.scannable
  have hsites' : AllHideable d state (w.sites d (Standing.ofLevels []) 0) := hsites
  obtain ⟨written, hsource, hwritten⟩ := hspans.blanksAs hsites' hne
  rw [Segment.revise_nil, List.append_nil] at hwritten
  have hrevise : reviseText (blankAction d allStates state) [] w.source =
      ⟨(w.blanked d allStates state .root).source, true⟩ := by
    rw [reviseText, hclean, hwritten, ← hsource]
    rfl
  rw [createState]
  simp only [hrevise]
  rw [Outcome.andThen, (h.blanked hstates hstate hsites).declareState_source
    (first?_blanked hfirst d allStates state) hroot]
  rfl

end Markup

end SkinMarkup
