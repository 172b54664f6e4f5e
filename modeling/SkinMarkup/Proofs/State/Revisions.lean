import Mathlib.Data.List.Forall2
import SkinMarkup.Proofs.State.Documents

/-!
# Revisions of documents

A revision of a document by an action on tokens is one by a judge of its
elements, if the action writes nothing but start tags (`Rewrites`). The outcome is
a document again (`Document.revise`). Elements that stay keep their order and
their depths: `forall₂_spots_revise` compares the elements that are kept before
and after a revision, one by one.
-/

namespace SkinMarkup

/-! ## Judging by an action -/

/-- What stands between the brackets of a start tag. -/
def contentOf (selfClosing : Bool) (tag : Text) : Text :=
  (tag.drop 1).take (tag.length - 1 - (closer selfClosing).length)

theorem contentOf_source (selfClosing : Bool) (content : Text) :
    contentOf selfClosing (Event.start selfClosing content).source = content := by
  cases selfClosing <;> simp [contentOf, Event.start, Event.source, closer]

/-- The token that starts an element with the given content. -/
def Token.ofStart (selfClosing : Bool) (content : Text) : Token :=
  ⟨.ofStart selfClosing, 0, (Event.start selfClosing content).source⟩

/-- But for where it stands, the token of a start tag is the one with its content. -/
theorem Markup.IsToken.ofStart_eq {token : Token} {selfClosing : Bool} {content : Text}
    (h : IsToken token (.ofStart selfClosing) (.start selfClosing content)) :
    { token with start := 0 } = Token.ofStart selfClosing content := by
  rw [Token.ofStart, ← h.kind, ← h.text]

theorem isStart_ofStart (selfClosing : Bool) (content : Text) :
    (Token.ofStart selfClosing content).isStart = true := by
  cases selfClosing <;> rfl

/-- What becomes of an element if this becomes of its token. -/
def Action.verdict (selfClosing : Bool) (content : Text) : Action → Verdict
  | keep => .write content
  | replace tag => .write (contentOf selfClosing tag)
  | pass => .pass
  | erase => .erase

/-- The content of a start tag after a verdict. -/
def Verdict.content (old : Text) : Verdict → Text
  | write content => content
  | pass => old
  | erase => old

namespace Markup

section

variable {σ : Type} {act : σ → Token → σ × Action} {w : Markup}

/-- Decides about an element as an action decides about its token. -/
def judgeOf (act : σ → Token → σ × Action) (memory : σ) (selfClosing : Bool) (content : Text) :
    σ × Verdict :=
  ((act memory (.ofStart selfClosing content)).1,
    (act memory (.ofStart selfClosing content)).2.verdict selfClosing content)

/-- An action that decides about start tags wherever they stand, and writes
nothing but start tags in their places. It passes over the elements that are `shut`. -/
structure Rewrites (shut : Text → Bool) (act : σ → Token → σ × Action) (w : Markup) : Prop where
  others : ∀ memory token, token.isStart = false → act memory token = (memory, .keep)
  anywhere : ∀ memory (token : Token) start, act memory { token with start } = act memory token
  pass : ∀ memory content, shut content = true → (act memory (.ofStart false content)).2 = .pass
  starts : ∀ memory selfClosing content, (selfClosing, content) ∈ w.exposed shut →
    (act memory (.ofStart selfClosing content)).2 = .pass ∨
      (act memory (.ofStart selfClosing content)).2 = .erase ∨
      ∃ content', (act memory (.ofStart selfClosing content)).2 =
        .replace (Event.start selfClosing content').source ∧ Replaces selfClosing content content'

variable {shut : Text → Bool}

theorem Rewrites.pass_judge (h : Rewrites shut act w) (memory : σ) {content : Text}
    (hshut : shut content = true) : (judgeOf act memory false content).2 = .pass := by
  rw [judgeOf, h.pass memory content hshut]
  rfl

theorem Rewrites.follows (h : Rewrites shut act w) : FollowsOutside shut (judgeOf act) act w := by
  refine ⟨h.others, fun memory _ => h.pass_judge memory,
    fun memory selfClosing content token hmem htoken => ?_⟩
  rw [← h.anywhere memory token 0, htoken.ofStart_eq, judgeOf]
  refine Prod.ext rfl ?_
  rcases h.starts memory selfClosing content hmem with hpass | herase | ⟨content', hreplace, -⟩
  · rw [hpass]
    rfl
  · rw [herase]
    rfl
  · rw [hreplace, Action.verdict, contentOf_source]
    rfl

theorem Rewrites.careful (h : Rewrites shut act w) : CarefulOutside shut (judgeOf act) w := by
  refine ⟨fun memory _ => h.pass_judge memory,
    fun memory selfClosing content content' hmem hjudge => ?_⟩
  rw [judgeOf] at hjudge
  dsimp only at hjudge
  rcases h.starts memory selfClosing content hmem with hpass | herase | ⟨written, hreplace, hnew⟩
  · rw [hpass] at hjudge
    cases hjudge
  · rw [herase] at hjudge
    cases hjudge
  · rw [hreplace, Action.verdict, contentOf_source] at hjudge
    cases hjudge
    exact hnew

end

/-! ## Documents stay documents -/

section

variable {σ : Type} {judge : σ → Bool → Text → σ × Verdict} {w : Markup} {memory : σ}

/-- **A revised document is a document** if its root stays. -/
theorem Document.revise_outside {shut : Text → Bool} (h : w.Document)
    (hcareful : CarefulOutside shut judge w)
    (hroot : ∀ selfClosing content, w.first? = some (selfClosing, content) →
      (judge memory selfClosing content).2 ≠ .erase) : (w.revise judge memory []).2.Document :=
  ⟨hereditary_lexed.revise h.lexed hcareful memory hereditary_lexed.clear_nil,
    hereditary_scannable.revise h.scannable hcareful memory trivial,
    hereditary_readable.revise h.readable hcareful memory hereditary_readable.clear_nil,
    h.single.revise memory blanks_nil hroot⟩

theorem Document.revise (h : w.Document) (hcareful : Careful judge w)
    (hroot : ∀ selfClosing content, w.first? = some (selfClosing, content) →
      (judge memory selfClosing content).2 ≠ .erase) : (w.revise judge memory []).2.Document :=
  h.revise_outside hcareful.outside hroot

/-- A document with another start tag of its root is a document. -/
theorem Document.setFirst {selfClosing : Bool} {content content' : Text} (h : w.Document)
    (hfirst : w.first? = some (selfClosing, content))
    (hnew : Replaces selfClosing content content') : (w.setFirst content').Document :=
  ⟨hereditary_lexed.setFirst h.lexed hfirst hnew,
    hereditary_scannable.setFirst h.scannable hfirst hnew,
    hereditary_readable.setFirst h.readable hfirst hnew, h.single.setFirst _⟩

theorem first?_text (raw : Text) (rest : Markup) : (text raw rest).first? = rest.first? := by
  unfold text
  split <;> rfl

/-- The root after a revision in which it stays. -/
theorem first?_revise (judge : σ → Bool → Text → σ × Verdict) (memory : σ) {selfClosing : Bool}
    {content : Text} (hfirst : w.first? = some (selfClosing, content))
    (hroot : (judge memory selfClosing content).2 ≠ .erase) (gap : Text) :
    (w.revise judge memory gap).2.first? =
      some (selfClosing, (judge memory selfClosing content).2.content content) := by
  induction w generalizing gap with
  | nil => cases hfirst
  | inert event hinert rest ih =>
    cases htext : event.isText with
    | true =>
      rw [revise_text hinert htext]
      exact ih hfirst _
    | false =>
      rw [revise_inert hinert htext, first?_text]
      exact ih hfirst []
  | empty other rest ih =>
    cases hfirst
    cases hverdict : (judge memory true content).2 with
    | write content' => rw [revise_empty_of_write (Prod.ext rfl hverdict), first?_text]; rfl
    | pass => rw [revise_empty_of_pass (Prod.ext rfl hverdict), first?_text]; rfl
    | erase => exact absurd hverdict hroot
  | node other inside close rest ihinside ih =>
    cases hfirst
    cases hverdict : (judge memory false content).2 with
    | write content' => rw [revise_node_of_write (Prod.ext rfl hverdict), first?_text]; rfl
    | pass => rw [revise_node_of_pass (Prod.ext rfl hverdict), first?_text]; rfl
    | erase => exact absurd hverdict hroot

end

/-! ## Elements that are kept -/

/-- The same place in a document, with start tags that are related. `Q` is given
whether the place is in a block of declarations. -/
structure SpotRel {α : Type} (Q : Bool → α → α → Prop) (p p' : Spot α) : Prop where
  level : p'.level = p.level
  inside : p'.inside = p.inside
  related : Q p.inside p.element p'.element

section

variable {σ : Type} {judge : σ → Bool → Text → σ × Verdict} {w : Markup}

/-- A judge that leaves the blocks of declarations alone, erases nothing that is
kept, and writes start tags that are kept if the old ones are. -/
structure Keeps (d : Dialect) (keep keep' : Bool → Tag → Bool) (Q : Bool → Text → Text → Prop)
    (judge : σ → Bool → Text → σ × Verdict) (w : Markup) : Prop where
  refl : ∀ content, Q true content content
  inside : ∀ content, keep' true (alone content) = keep true (alone content)
  block : ∀ memory selfClosing content, Event.start selfClosing content ∈ w.events →
    d.isBlock content = true → (judge memory selfClosing content).2 = .pass
  pass : ∀ memory selfClosing content, Event.start selfClosing content ∈ w.events →
    d.isBlock content = false → (judge memory selfClosing content).2 ≠ .pass
  erase : ∀ memory selfClosing content, Event.start selfClosing content ∈ w.events →
    (judge memory selfClosing content).2 = .erase → keep false (alone content) = false
  write : ∀ memory selfClosing content content', Event.start selfClosing content ∈ w.events →
    (judge memory selfClosing content).2 = .write content' →
    d.isBlock content' = false ∧ keep' false (alone content') = keep false (alone content) ∧
      Q false content content'

variable {d : Dialect} {keep keep' : Bool → Tag → Bool} {Q : Bool → Text → Text → Prop}

theorem Keeps.mono {w' : Markup} (h : Keeps d keep keep' Q judge w) (hsub : w'.events ⊆ w.events) :
    Keeps d keep keep' Q judge w' :=
  ⟨h.refl, h.inside,
    fun memory selfClosing content hmem => h.block memory selfClosing content (hsub hmem),
    fun memory selfClosing content hmem => h.pass memory selfClosing content (hsub hmem),
    fun memory selfClosing content hmem => h.erase memory selfClosing content (hsub hmem),
    fun memory selfClosing content content' hmem =>
      h.write memory selfClosing content content' (hsub hmem)⟩

/-- Whether an element starts a block of declarations decides what may become of
it. -/
theorem Keeps.cases (h : Keeps d keep keep' Q judge w) (memory : σ) {selfClosing : Bool}
    {content : Text} (hmem : Event.start selfClosing content ∈ w.events) :
    (d.isBlock content = true ∧ (judge memory selfClosing content).2 = .pass) ∨
      (d.isBlock content = false ∧ (judge memory selfClosing content).2 = .erase ∧
        keep false (alone content) = false) ∨
      (d.isBlock content = false ∧ ∃ content', (judge memory selfClosing content).2 =
        .write content' ∧ d.isBlock content' = false ∧
        keep' false (alone content') = keep false (alone content) ∧ Q false content content') := by
  cases hblock : d.isBlock content with
  | true => exact Or.inl ⟨rfl, h.block memory selfClosing content hmem hblock⟩
  | false =>
    refine Or.inr ?_
    cases hverdict : (judge memory selfClosing content).2 with
    | pass => exact absurd hverdict (h.pass memory selfClosing content hmem hblock)
    | erase => exact Or.inl ⟨rfl, rfl, h.erase memory selfClosing content hmem hverdict⟩
    | write content' =>
      exact Or.inr ⟨rfl, content', rfl, h.write memory selfClosing content content' hmem hverdict⟩

/-- A block of declarations stays as it is. -/
theorem Keeps.spots_inside (h : Keeps d keep keep' Q judge w) (w' : Markup) (level : Nat) :
    List.Forall₂ (SpotRel Q) (w'.spots d keep true level) (w'.spots d keep' true level) := by
  have hsame : ∀ level content, SpotRel Q ⟨level, true, content⟩ ⟨level, true, content⟩ :=
    fun _ content => ⟨rfl, rfl, h.refl content⟩
  induction w' generalizing level with
  | nil => exact .nil
  | inert event hinert rest ih => exact ih level
  | empty content rest ih =>
    simp only [spots, Bool.true_or, h.inside]
    refine List.rel_append ?_ (ih level)
    split
    · exact .cons (hsame _ _) .nil
    · exact .nil
  | node content within close rest ihwithin ih =>
    simp only [spots, Bool.true_or, h.inside]
    refine List.rel_append ?_ (ih level)
    split
    · exact .cons (hsame _ _) (ihwithin (level + 1))
    · exact .nil

/-- Whether every revision of markup keeps the elements that are kept, where they are. -/
def KeepsSpots (d : Dialect) (keep keep' : Bool → Tag → Bool) (Q : Bool → Text → Text → Prop)
    (judge : σ → Bool → Text → σ × Verdict) (w : Markup) : Prop :=
  ∀ (memory : σ) (gap : Text) (level : Nat),
    List.Forall₂ (SpotRel Q) (w.spots d keep false level)
      ((w.revise judge memory gap).2.spots d keep' false level)

namespace KeepsSpots

variable {content close : Text} {inside rest : Markup}

theorem inert {event : Event} {hinert : event.elementKind? = none}
    (hrest : KeepsSpots d keep keep' Q judge rest) :
    KeepsSpots d keep keep' Q judge (inert event hinert rest) := by
  intro memory gap level
  cases htext : event.isText with
  | true =>
    rw [revise_text hinert htext]
    exact hrest memory _ level
  | false =>
    rw [revise_inert hinert htext, spots_text]
    exact hrest memory [] level

theorem empty (h : Keeps d keep keep' Q judge (empty content rest))
    (hrest : KeepsSpots d keep keep' Q judge rest) :
    KeepsSpots d keep keep' Q judge (Markup.empty content rest) := by
  intro memory gap level
  have hmem : Event.start true content ∈ (Markup.empty content rest).events := List.mem_cons_self
  rcases h.cases memory hmem with ⟨hblock, hpass⟩ | ⟨hblock, herase, hkeep⟩ |
    ⟨hblock, content', hwrite, hblock', hkeep, hrelated⟩
  · rw [revise_empty_of_pass (Prod.ext rfl hpass), spots_text]
    simp only [spots, Bool.false_or, hblock, h.inside]
    refine List.rel_append ?_ (hrest _ [] level)
    split
    · exact .cons ⟨rfl, rfl, h.refl content⟩ .nil
    · exact .nil
  · rw [revise_empty_of_erase (Prod.ext rfl herase)]
    simp only [spots, Bool.false_or, hblock, hkeep, Bool.false_eq_true, if_false, List.nil_append]
    exact hrest _ _ level
  · rw [revise_empty_of_write (Prod.ext rfl hwrite), spots_text]
    simp only [spots, Bool.false_or, hblock, hblock', hkeep]
    refine List.rel_append ?_ (hrest _ [] level)
    split
    · exact .cons ⟨rfl, rfl, hrelated⟩ .nil
    · exact .nil

theorem node (h : Keeps d keep keep' Q judge (node content inside close rest))
    (hinside : KeepsSpots d keep keep' Q judge inside)
    (hrest : KeepsSpots d keep keep' Q judge rest) :
    KeepsSpots d keep keep' Q judge (Markup.node content inside close rest) := by
  intro memory gap level
  have hmem : Event.start false content ∈ (Markup.node content inside close rest).events :=
    List.mem_cons_self
  rcases h.cases memory hmem with ⟨hblock, hpass⟩ | ⟨hblock, herase, hkeep⟩ |
    ⟨hblock, content', hwrite, hblock', hkeep, hrelated⟩
  · rw [revise_node_of_pass (Prod.ext rfl hpass), spots_text]
    simp only [spots, Bool.false_or, hblock, h.inside]
    refine List.rel_append ?_ (hrest _ [] level)
    split
    · exact .cons ⟨rfl, rfl, h.refl content⟩ (h.spots_inside inside _)
    · exact .nil
  · rw [revise_node_of_erase (Prod.ext rfl herase)]
    simp only [spots, Bool.false_or, hblock, hkeep, Bool.false_eq_true, if_false, List.nil_append]
    exact hrest _ _ level
  · rw [revise_node_of_write (Prod.ext rfl hwrite), spots_text]
    simp only [spots, Bool.false_or, hblock, hblock', hkeep]
    refine List.rel_append ?_ (hrest _ [] level)
    split
    · exact .cons ⟨rfl, rfl, hrelated⟩ (hinside _ [] _)
    · exact .nil

end KeepsSpots

/-- **A revision keeps the elements that are kept, where they are.** -/
theorem forall₂_spots_revise (h : Keeps d keep keep' Q judge w) :
    KeepsSpots d keep keep' Q judge w := by
  induction w with
  | nil =>
    intro memory gap level
    rw [revise, spots_text]
    exact .nil
  | inert event hinert rest ih => exact .inert (ih (h.mono events_behind_inert))
  | empty content rest ih => exact .empty h (ih (h.mono events_behind_empty))
  | node content inside close rest ihinside ih =>
    exact .node h (ihinside (h.mono events_inside_node)) (ih (h.mono events_behind_node))

end

section

variable {w w' : Markup} {d : Dialect} {keep keep' : Bool → Tag → Bool}

theorem levels_eq {α : Type} {Q : Bool → α → α → Prop} {before after : List (Spot α)}
    (h : List.Forall₂ (SpotRel Q) before after) :
    after.map Spot.level = before.map Spot.level := by
  induction h with
  | nil => rfl
  | cons hp _ ih => rw [List.map_cons, List.map_cons, ih, hp.level]

/-- A root that is not kept leaves nothing. -/
theorem Single.spots_eq_nil {selfClosing : Bool} {content : Text} (h : w.Single)
    (hfirst : w.first? = some (selfClosing, content))
    (hkeep : keep (d.isBlock content) (alone content) = false) : w.spots d keep false 0 = [] := by
  induction w with
  | nil => cases hfirst
  | inert event hinert rest ih => exact ih h.2 hfirst
  | empty other rest ih =>
    cases hfirst
    have hrest : rest.Outer := h
    rw [spots, Bool.false_or, hkeep, spots_of_outer hrest]
    rfl
  | node other within close rest ihwithin ih =>
    cases hfirst
    have hrest : rest.Outer := h
    rw [spots, Bool.false_or, hkeep, spots_of_outer hrest]
    rfl

/-- The root stands where no element is around it. -/
theorem Single.root_of_mem_spots {selfClosing : Bool} {content : Text} {p : Spot Text}
    (h : w.Single) (hfirst : w.first? = some (selfClosing, content))
    (hp : p ∈ w.spots d keep false 0) (hlevel : p.level = 0) :
    p.inside = d.isBlock content ∧ p.element = content := by
  cases hkept : keep (d.isBlock content) (alone content) with
  | false =>
    rw [h.spots_eq_nil hfirst hkept] at hp
    cases hp
  | true =>
    obtain ⟨below, hbelow, heq⟩ := h.exists_below hfirst d keep
    have hspots := heq content rfl hkept
    rw [setFirst_eq_self hfirst] at hspots
    rw [hspots] at hp
    rcases List.mem_cons.mp hp with rfl | hp
    · exact ⟨rfl, rfl⟩
    · exact absurd hlevel (Nat.ne_of_gt (hbelow p hp))

/-- **Another start tag of the root leaves everything below it where it is.** -/
theorem Single.forall₂_setFirst_root {Q Q₀ : Bool → Text → Text → Prop} {selfClosing : Bool}
    {content content' : Text} {before : List (Spot Text)} (h : w'.Single)
    (hfirst : w'.first? = some (selfClosing, content))
    (hspots : List.Forall₂ (SpotRel Q) before (w'.spots d keep false 0))
    (hblock : d.isBlock content' = d.isBlock content)
    (hkeep : keep (d.isBlock content) (alone content') = keep (d.isBlock content) (alone content))
    (hroot : ∀ old, Q (d.isBlock content) old content → Q₀ (d.isBlock content) old content') :
    List.Forall₂ (fun p p' => SpotRel (if p.level = 0 then Q₀ else Q) p p') before
      ((w'.setFirst content').spots d keep false 0) := by
  cases hkept : keep (d.isBlock content) (alone content) with
  | false =>
    rw [h.spots_eq_nil hfirst hkept, List.forall₂_nil_right_iff] at hspots
    rw [(h.setFirst content').spots_eq_nil (first?_setFirst hfirst content')
      (by rw [hblock, hkeep, hkept]), hspots]
    exact .nil
  | true =>
    obtain ⟨below, hbelow, heq⟩ := h.exists_below hfirst d keep
    have hold := heq content rfl hkept
    rw [setFirst_eq_self hfirst] at hold
    rw [hold] at hspots
    rw [heq content' hblock (hkeep.trans hkept)]
    obtain ⟨p, others, hp, hothers, rfl⟩ := List.forall₂_cons_right_iff.mp hspots
    have hinside : p.inside = d.isBlock content := hp.inside.symm
    have hlevel : p.level = 0 := hp.level.symm
    refine .cons ⟨hp.level, hp.inside, ?_⟩ ?_
    · rw [if_pos hlevel, hinside]
      exact hroot _ (hinside ▸ hp.related)
    · have hothersBelow : ∀ q ∈ others, q.level ≠ 0 := by
        intro q hq
        have hmem := List.mem_map_of_mem (f := Spot.level) hq
        rw [← levels_eq hothers] at hmem
        obtain ⟨q', hq', hlevel⟩ := List.mem_map.mp hmem
        exact hlevel ▸ Nat.ne_of_gt (hbelow q' hq')
      refine ((List.forall₂_and_left _ _).mpr ⟨hothersBelow, hothers⟩).imp fun q q' hq => ?_
      rw [if_neg hq.1]
      exact hq.2

/-- The same where the root is compared as the elements below it. -/
theorem Single.forall₂_setFirst {Q : Bool → Text → Text → Prop} {selfClosing : Bool}
    {content content' : Text} {before : List (Spot Text)} (h : w'.Single)
    (hfirst : w'.first? = some (selfClosing, content))
    (hspots : List.Forall₂ (SpotRel Q) before (w'.spots d keep false 0))
    (hblock : d.isBlock content' = d.isBlock content)
    (hkeep : keep (d.isBlock content) (alone content') = keep (d.isBlock content) (alone content))
    (hroot : ∀ old, Q (d.isBlock content) old content → Q (d.isBlock content) old content') :
    List.Forall₂ (SpotRel Q) before ((w'.setFirst content').spots d keep false 0) := by
  simpa only [ite_self] using h.forall₂_setFirst_root hfirst hspots hblock hkeep hroot

/-- **Elements of documents are compared by their markup.** -/
theorem forall₂_spots_of_tags
    {R : Spot (Text × List (Text × Text)) → Spot (Text × List (Text × Text)) → Prop}
    {root root' : Tag} (hkeep : Tag.Respects keep) (hkeep' : Tag.Respects keep')
    (htags : w.tags [] = [root.bare]) (htags' : w'.tags [] = [root'.bare])
    (h : List.Forall₂ (fun p p' => R (p.map elementOf) (p'.map elementOf))
      (w.spots d keep false 0) (w'.spots d keep' false 0)) :
    List.Forall₂ (fun p p' : Spot Tag => R (p.map Tag.element) (p'.map Tag.element))
      (root.spots d keep false 0) (root'.spots d keep' false 0) := by
  have hmap : List.Forall₂ R ((w.spots d keep false 0).map (Spot.map elementOf))
      ((w'.spots d keep' false 0).map (Spot.map elementOf)) := by
    rw [List.forall₂_map_left_iff, List.forall₂_map_right_iff]
    exact h
  rw [← element_spots_of_tags hkeep htags, ← element_spots_of_tags hkeep' htags',
    List.forall₂_map_left_iff, List.forall₂_map_right_iff] at hmap
  exact hmap

end

end Markup

end SkinMarkup
