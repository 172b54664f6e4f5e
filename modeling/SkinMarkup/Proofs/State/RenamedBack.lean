import SkinMarkup.Proofs.Scan.Layout
import SkinMarkup.Proofs.Scan.Root
import SkinMarkup.Proofs.State.Actions
import SkinMarkup.Proofs.State.RenamedStart

/-!
# A state renamed there and back

**Renaming a state and renaming it back restores the text**
(`renameState_renameState`), whether the text is well-formed or not. The new name
must not be in the text, and what is rewritten must be in normal form
(`NormalText`).

The segments of the text are followed through both revisions
(`exists_revised_back`); the tag of the root is rewritten once more each time
(`redeclareState_recut`).
-/

namespace SkinMarkup

open Rewriter

/-! ## The tokens that a revision looks at -/

namespace Segment

/-- The tokens that a revision looks at, each with what is remembered then. -/
def visited {σ : Type} (act : σ → Token → σ × Action) (memory : σ) (segments : List Segment) :
    List (σ × Token) :=
  match segments with
  | [] => []
  | s :: rest =>
    (memory, s.token) ::
      match act memory s.token with
      | (memory, .keep) => visited act memory rest
      | (memory, .replace _) => visited act memory rest
      | (memory, .pass) | (memory, .erase) =>
        match h : splitAfter s.token rest with
        | some (_, after) =>
          have := length_splitAfter h
          visited act memory after
        | none => []
termination_by segments.length

end Segment

/-- Every value that renaming a state rewrites in a text is in normal form when it
is rewritten. -/
structure NormalText (d : Dialect) (old new t : Text) : Prop where
  starts : ∀ visit ∈ Segment.visited (renameAction d old new) false (scan t).segments,
    visit.2.isStart = true → visit.2.localName ≠ d.declarations →
      NormalStart d old new visit.1 visit.2
  root : ∀ split ∈ splitAtRoot (reviseText (renameAction d old new) false t).text,
    NormalList Word.states old split.root.text

instance (d : Dialect) (old new t : Text) : Decidable (NormalText d old new t) :=
  decidable_of_iff (_ ∧ _) ⟨fun h => ⟨h.1, h.2⟩, fun h => ⟨h.starts, h.root⟩⟩

namespace Segment

section

variable {σ : Type} {act : σ → Token → σ × Action} {memory memory' : σ} {s : Segment}
  {rest inside after : List Segment}

theorem visited_of_keep (h : act memory s.token = (memory', .keep)) :
    visited act memory (s :: rest) = (memory, s.token) :: visited act memory' rest := by
  rw [visited, h]

theorem visited_of_replace {tag : Text} (h : act memory s.token = (memory', .replace tag)) :
    visited act memory (s :: rest) = (memory, s.token) :: visited act memory' rest := by
  rw [visited, h]

theorem visited_of_pass (h : act memory s.token = (memory', .pass))
    (hsplit : splitAfter s.token rest = some (inside, after)) :
    visited act memory (s :: rest) = (memory, s.token) :: visited act memory' after := by
  rw [visited, h]
  dsimp only
  split
  · next heq =>
    cases hsplit.symm.trans heq
    rfl
  · next heq => cases hsplit.symm.trans heq

end

theorem splitElement_append {depth : Nat} {inside after : List Segment}
    (h : Scan.splitElement depth (inside ++ after) = some (inside, after)) (after' : List Segment) :
    Scan.splitElement depth (inside ++ after') = some (inside, after') := by
  induction inside generalizing depth with
  | nil =>
    exfalso
    cases after with
    | nil => cases h
    | cons s rest =>
      rw [List.nil_append] at h
      unfold Scan.splitElement at h
      split at h
      · cases h
      all_goals
        obtain ⟨parts, -, heq⟩ := Option.map_eq_some_iff.mp h
        cases heq
  | cons s inside ih =>
    rw [List.cons_append] at h ⊢
    unfold Scan.splitElement at h ⊢
    split at h
    · obtain ⟨rfl, -⟩ : inside = [] ∧ True := by simpa using h
      rfl
    all_goals
      obtain ⟨⟨a, b⟩, hab, heq⟩ := Option.map_eq_some_iff.mp h
      cases heq
      rw [ih hab]
      rfl

/-- An element ends where it ends, whatever follows it. -/
theorem splitAfter_append {token : Token} {rest inside after : List Segment}
    (h : splitAfter token rest = some (inside, after)) (after' : List Segment) :
    splitAfter token (inside ++ after') = some (inside, after') := by
  have hrest := splitAfter_eq_some h
  unfold splitAfter at h ⊢
  split at h
  · next hkind =>
    rw [hrest] at h
    rw [if_pos hkind, splitElement_append h after']
  · next hkind =>
    cases h
    rw [if_neg hkind]
    rfl

/-! ## Segments -/

variable {d : Dialect} {old new : StateName} {met : Bool} {segments : List Segment}

/-- The start tags that renaming a state looks at are in normal form. -/
def NormalStarts (d : Dialect) (old new : Text) (met : Bool) (segments : List Segment) : Prop :=
  ∀ visit ∈ visited (renameAction d old new) met segments, visit.2.isStart = true →
    visit.2.localName ≠ d.declarations → NormalStart d old new visit.1 visit.2

/-- Segments that are restored when a state is renamed there and back. -/
def Restored (d : Dialect) (old new : Text) (met : Bool) (segments : List Segment) : Prop :=
  ∃ segments', List.Forall₂ Recut segments segments' ∧
    revise (renameAction d old new) met segments = sourceAll segments' ∧
    revise (renameAction d new old) met segments' = sourceAll segments

/-- What follows a start tag renamed there and back is restored with it. -/
structure RestoredBehind (d : Dialect) (old new : Text) (met : Bool) (s : Segment)
    (rest : List Segment) (there further back : Text) (rest' : List Segment) : Prop where
  recut : List.Forall₂ Recut rest rest'
  revised : revise (renameAction d old new) met (s :: rest) = sourceAll (s.retag there :: rest')
  revisedBack : revise (renameAction d new old) met (s.retag further :: rest') =
    sourceAll (s.retag back :: rest)

section

variable {s : Segment} {rest : List Segment} {extra : List Rewriter} {there further back : Text}

variable (hstart : s.token.isStart = true)
  (htag : ThereAndBack d old.val new.val met s.token extra there further back)
  (hnormal : NormalStarts d old.val new.val met (s :: rest))
  (hrest : ∀ met' after, after <:+ rest → NormalStarts d old.val new.val met' after →
    Restored d old.val new.val met' after)

include hstart htag hnormal hrest

/-- The declarations are passed over both times. -/
theorem exists_behind_declarations (hcut : ∀ x ∈ rest, x.token.IsCut)
    (hdeclarations : s.token.localName = d.declarations) :
    ∃ rest', RestoredBehind d old.val new.val met s rest there further back rest' := by
  have hnoSteps : startSteps d old.val met s.token = [] := if_pos hdeclarations
  have hthere : s.token.text = there := by
    rw [← htag.renamed, hnoSteps]
    rfl
  have hback : further = back := by
    rw [← htag.renamedBack, hnoSteps]
    rfl
  subst hthere hback
  have hforward : renameAction d old.val new.val met s.token = (met, .pass) := by
    rw [renameAction_of_isStart hstart, if_pos hdeclarations]
  have hbackward : renameAction d new.val old.val met (s.retag further).token = (met, .pass) := by
    have hname : (s.retag further).token.localName = d.declarations :=
      htag.localName_eq.trans hdeclarations
    rw [renameAction_of_isStart (isStart_retag hstart), if_pos hname]
  have hkind : splitAfter (s.retag further).token = splitAfter s.token := rfl
  cases hsplit : splitAfter s.token rest with
  | none =>
    refine ⟨rest, forall₂_recut_self hcut, ?_, ?_⟩
    · rw [revise_of_pass_none hforward hsplit]
      rfl
    · rw [revise_of_pass_none hbackward (by rw [hkind, hsplit])]
      rfl
  | some parts =>
    obtain ⟨inside, after⟩ := parts
    obtain rfl := splitAfter_eq_some hsplit
    have hnormalAfter : NormalStarts d old.val new.val met after := by
      intro visit hvisit
      apply hnormal visit
      rw [visited_of_pass hforward hsplit]
      exact List.mem_cons_of_mem _ hvisit
    obtain ⟨after', hforall, hto, hfro⟩ :=
      hrest met after (List.suffix_append inside after) hnormalAfter
    refine ⟨inside ++ after', List.rel_append (forall₂_recut_self fun x hx =>
      hcut x (List.mem_append_left after hx)) hforall, ?_, ?_⟩
    · rw [revise_of_pass hforward hsplit, hto, sourceAll_cons, sourceAll_append]
      simp [source, retag]
    · rw [revise_of_pass hbackward (by rw [hkind]; exact splitAfter_append hsplit after'), hfro,
        sourceAll_cons, sourceAll_append]
      simp [source, retag]

/-- Any other tag is rewritten both times. -/
theorem exists_behind_other (hdeclarations : s.token.localName ≠ d.declarations) :
    ∃ rest', RestoredBehind d old.val new.val met s rest there further back rest' := by
  have hforward : renameAction d old.val new.val met s.token =
      (met || isDeclaration d old.val met s.token, .replace there) := by
    rw [renameAction_of_isStart hstart, if_neg hdeclarations, htag.renamed]
  have hbackward : renameAction d new.val old.val met (s.retag further).token =
      (met || isDeclaration d old.val met s.token, .replace back) := by
    have hname : (s.retag further).token.localName = s.token.localName := htag.localName_eq
    have hdecl : isDeclaration d new.val met (s.retag further).token =
        isDeclaration d old.val met s.token := htag.isDeclaration_eq hdeclarations
    have hsteps : startSteps d new.val met (s.retag further).token =
        startSteps d old.val met s.token := by
      rw [startSteps, startSteps, hname, hdecl]
    have hback : run (startSteps d old.val met s.token) new.val old.val
        (s.retag further).token.text = back := htag.renamedBack
    rw [renameAction_of_isStart (isStart_retag hstart), hname, if_neg hdeclarations, hdecl, hsteps,
      hback]
  have hnormalRest : NormalStarts d old.val new.val
      (met || isDeclaration d old.val met s.token) rest := by
    intro visit hvisit
    apply hnormal visit
    rw [visited_of_replace hforward]
    exact List.mem_cons_of_mem _ hvisit
  obtain ⟨rest', hforall, hto, hfro⟩ := hrest _ rest (List.suffix_refl rest) hnormalRest
  refine ⟨rest', hforall, ?_, ?_⟩
  · rw [revise_of_replace hforward, hto]
    rfl
  · rw [revise_of_replace hbackward, hfro]
    rfl

end

/-- **One start tag and what follows it, there and back.** What follows is restored
if every shorter part of it is. -/
theorem exists_revised_cons {s : Segment} {rest : List Segment}
    (hcut : ∀ x ∈ s :: rest, x.token.IsCut) (hstart : s.token.isStart = true)
    (hfresh : ¬ new.val <:+: s.token.text)
    (hnormal : NormalStarts d old.val new.val met (s :: rest)) {extra : List Rewriter}
    (hextra : ∀ r ∈ extra, IsStep r)
    (hnormalExtra : NormalRun extra old.val new.val
      (run (startSteps d old.val met s.token) old.val new.val s.token.text))
    (hrest : ∀ met' after, after <:+ rest → NormalStarts d old.val new.val met' after →
      Restored d old.val new.val met' after) :
    ∃ there further back rest',
      ThereAndBack d old.val new.val met s.token extra there further back ∧
      RestoredBehind d old.val new.val met s rest there further back rest' := by
  have hself : s.token.localName ≠ d.declarations → NormalStart d old.val new.val met s.token :=
    hnormal (met, s.token) (by rw [visited]; exact List.mem_cons_self) hstart
  obtain ⟨there, further, back, htag⟩ := exists_renamed_back d (hcut s List.mem_cons_self) hstart
    hfresh hextra (NormalStart.normalRun hself) hnormalExtra
  by_cases hdeclarations : s.token.localName = d.declarations
  · obtain ⟨rest', hbehind⟩ :=
      exists_behind_declarations hstart htag hnormal hrest
        (fun x hx => hcut x (List.mem_cons_of_mem s hx)) hdeclarations
    exact ⟨there, further, back, rest', htag, hbehind⟩
  · obtain ⟨rest', hbehind⟩ :=
      exists_behind_other hstart htag hnormal hrest hdeclarations
    exact ⟨there, further, back, rest', htag, hbehind⟩

/-- **Segments are restored when a state is renamed there and back.** -/
theorem exists_revised_back (hcut : ∀ s ∈ segments, s.token.IsCut)
    (hfresh : ∀ s ∈ segments, ¬ new.val <:+: s.token.text)
    (hnormal : NormalStarts d old.val new.val met segments) :
    Restored d old.val new.val met segments := by
  induction hlength : segments.length using Nat.strong_induction_on generalizing met segments with
  | _ length ih =>
    subst hlength
    cases segments with
    | nil => exact ⟨[], .nil, revise_nil, revise_nil⟩
    | cons s rest =>
      cases hstart : s.token.isStart with
      | false =>
        have hforward : renameAction d old.val new.val met s.token = _ :=
          renameAction_of_not_isStart hstart
        have hbackward : renameAction d new.val old.val met s.token = _ :=
          renameAction_of_not_isStart hstart
        have hnormalRest : NormalStarts d old.val new.val met rest := by
          intro visit hvisit
          apply hnormal visit
          rw [visited_of_keep hforward]
          exact List.mem_cons_of_mem _ hvisit
        obtain ⟨rest', hforall, hto, hfro⟩ := ih rest.length (Nat.lt_succ_self _)
          (fun x hx => hcut x (List.mem_cons_of_mem s hx))
          (fun x hx => hfresh x (List.mem_cons_of_mem s hx)) hnormalRest rfl
        refine ⟨s :: rest', .cons (recut_self (hcut s List.mem_cons_self)) hforall, ?_, ?_⟩
        · rw [revise_of_keep hforward, hto]
          rfl
        · rw [revise_of_keep hbackward, hfro]
          rfl
      | true =>
        have hnoExtra : ∀ r ∈ ([] : List Rewriter), IsStep r := by simp
        obtain ⟨there, further, back, rest', htag, hbehind⟩ :=
          exists_revised_cons hcut hstart (hfresh s List.mem_cons_self) hnormal
            hnoExtra trivial fun met' after hafter hnormalAfter =>
              ih after.length (Nat.lt_succ_of_le hafter.length_le)
                (fun x hx => hcut x (List.mem_cons_of_mem s (hafter.subset hx)))
                (fun x hx => hfresh x (List.mem_cons_of_mem s (hafter.subset hx))) hnormalAfter rfl
        obtain rfl : there = further := htag.extended
        obtain rfl : back = s.token.text := htag.restored
        exact ⟨s.retag there :: rest', .cons (recut_retag (htag.isCut there (by simp)))
          hbehind.recut, hbehind.revised, hbehind.revisedBack⟩

/-! ## The root -/

theorem revise_append_of_inert {before after : List Segment}
    (hbefore : ∀ x ∈ before, x.token.isElement = false) (old new : Text) :
    revise (renameAction d old new) met (before ++ after) =
      sourceAll before ++ revise (renameAction d old new) met after := by
  induction before with
  | nil => rfl
  | cons x before ih =>
    have hx := Token.isStart_eq_false (hbefore x List.mem_cons_self)
    rw [List.cons_append, revise_of_keep (renameAction_of_not_isStart hx),
      ih fun y hy => hbefore y (List.mem_cons_of_mem x hy), sourceAll_cons]
    simp [source]

theorem visited_append_of_inert {before after : List Segment}
    (hbefore : ∀ x ∈ before, x.token.isElement = false) (old new : Text) :
    visited (renameAction d old new) met after ⊆
      visited (renameAction d old new) met (before ++ after) := by
  induction before with
  | nil => exact fun _ h => h
  | cons x before ih =>
    have hx := Token.isStart_eq_false (hbefore x List.mem_cons_self)
    rw [List.cons_append, visited_of_keep (renameAction_of_not_isStart hx)]
    exact fun _ h => List.mem_cons_of_mem _
      (ih (fun y hy => hbefore y (List.mem_cons_of_mem x hy)) h)

end Segment

section

variable {t : Text} {before after : List Segment} {root : Segment}
  (h : List.Forall₂ Segment.Recut (scan t).segments (before ++ root :: after))
  (hbefore : ∀ x ∈ before, x.token.isElement = false) (hroot : root.token.isStart = true)

include h hbefore hroot

/-- **The list on the root is rewritten in the root's tag.** -/
theorem redeclareState_recut (old new : Text) :
    redeclareState old new (Segment.sourceAll (before ++ root :: after) ++ (scan t).tail) =
      ⟨Segment.sourceAll (before ++ root.retag (run [inSlot Word.states list] old new
        root.token.text) :: after) ++ (scan t).tail, true⟩ := by
  have hrun : run [inSlot Word.states list] old new root.token.text =
      editOr (StateList.rename Word.states old new) root.token.text :=
    inSlot_list_apply Word.states old new root.token.text
  rw [redeclareState, editRoot_recut h hbefore hroot _ fun _ => rfl, hrun, editOr]
  cases StateList.rename Word.states old new root.token.text with
  | none => rfl
  | some tag => rfl

end

/-! ## The whole text -/

/-- Nothing is renamed in a text without elements. -/
theorem renameState_of_inert {t : Text} (h : ∀ x ∈ (scan t).segments, x.token.isElement = false)
    (d : Dialect) (old new : Text) : renameState d old new t = ⟨t, (scan t).isClean⟩ := by
  have hrevise : reviseText (renameAction d old new) false t = ⟨t, (scan t).isClean⟩ := by
    have hkeep : Segment.revise (renameAction d old new) false ((scan t).segments ++ []) =
        Segment.sourceAll (scan t).segments ++ Segment.revise (renameAction d old new) false [] :=
      Segment.revise_append_of_inert h old new
    rw [Segment.revise_nil, List.append_nil, List.append_nil] at hkeep
    rw [reviseText_of_unplaced (fun _ _ => rfl) rfl, hkeep]
    exact congrArg (Outcome.mk · _) (source_scan t)
  have hroot : splitAtRoot t = none := by
    simp [splitAtRoot, Segment.splitAtElement_eq_none h]
  simp [renameState, hrevise, Outcome.andThen, redeclareState, editRoot, hroot]

/-- **Renaming a state in a scanned text**: its root and what follows are revised, and
then the list on the root is rewritten. -/
theorem renameState_recut {d : Dialect} {old new t : Text}
    {before rest rest' : List Segment} {root root' : Segment}
    (h : List.Forall₂ Segment.Recut (scan t).segments (before ++ root :: rest))
    (h' : List.Forall₂ Segment.Recut (scan t).segments (before ++ root' :: rest'))
    (hbefore : ∀ x ∈ before, x.token.isElement = false) (hroot : root'.token.isStart = true)
    (hrevise : Segment.revise (renameAction d old new) false (root :: rest) =
      Segment.sourceAll (root' :: rest')) :
    reviseText (renameAction d old new) false
        (Segment.sourceAll (before ++ root :: rest) ++ (scan t).tail) =
      ⟨Segment.sourceAll (before ++ root' :: rest') ++ (scan t).tail, (scan t).isClean⟩ ∧
    renameState d old new (Segment.sourceAll (before ++ root :: rest) ++ (scan t).tail) =
      ⟨Segment.sourceAll (before ++ root'.retag (run [inSlot Word.states list] old new
        root'.token.text) :: rest') ++ (scan t).tail, (scan t).isClean⟩ := by
  have htext : reviseText (renameAction d old new) false
        (Segment.sourceAll (before ++ root :: rest) ++ (scan t).tail) =
      ⟨Segment.sourceAll (before ++ root' :: rest') ++ (scan t).tail, (scan t).isClean⟩ := by
    rw [reviseText_of_unplaced (fun _ _ => rfl) (segments_scan_recut h),
      Segment.revise_append_of_inert hbefore, hrevise,
      tail_scan_recut h, isClean_scan_recut h, ← Segment.sourceAll_append]
  refine ⟨htext, ?_⟩
  rw [renameState, htext, Outcome.andThen, redeclareState_recut h' hbefore hroot, Bool.and_true]

/-- The segments of a text, divided at its root. -/
structure RootAt (t : Text) (before : List Segment) (root : Segment) (after : List Segment) :
    Prop where
  segments : (scan t).segments = before ++ root :: after
  inert : ∀ x ∈ before, x.token.isElement = false
  isStart : root.token.isStart = true

namespace RootAt

variable {d : Dialect} {old new : StateName} {t : Text} {before after after' : List Segment}
  {root root' : Segment}

section

variable (h : RootAt t before root after)

include h

theorem isCut : ∀ x ∈ before ++ root :: after, x.token.IsCut := by
  rw [← h.segments]
  exact fun x hx => ((Scan.divides_scanFrom 0 0 t).isCut x hx).token

theorem isCut_root : ∀ x ∈ root :: after, x.token.IsCut :=
  fun x hx => h.isCut x (List.mem_append_right before hx)

theorem source : Segment.sourceAll (before ++ root :: after) ++ (scan t).tail = t := by
  rw [← h.segments]
  exact source_scan t

/-- Any tags of the same kinds may stand for the root and those behind it. -/
theorem recut (hroot : Segment.Recut root root') (hafter : List.Forall₂ Segment.Recut after after') :
    List.Forall₂ Segment.Recut (scan t).segments (before ++ root' :: after') := by
  rw [h.segments]
  exact List.rel_append (Segment.forall₂_recut_self fun x hx =>
    h.isCut x (List.mem_append_left _ hx)) (.cons hroot hafter)

theorem recut_after : List.Forall₂ Segment.Recut after after :=
  Segment.forall₂_recut_self fun x hx => h.isCut_root x (List.mem_cons_of_mem root hx)

theorem recut_self : List.Forall₂ Segment.Recut (scan t).segments (before ++ root :: after) :=
  h.recut (Segment.recut_self (h.isCut_root root List.mem_cons_self)) h.recut_after

theorem fresh (hfresh : ¬ new.val <:+: t) : ∀ x ∈ root :: after, ¬ new.val <:+: x.token.text := by
  intro x hx hpart
  have hmem : x ∈ (scan t).segments := by
    rw [h.segments]
    exact List.mem_append_right before hx
  obtain ⟨front, back, ht, -⟩ := Scan.exists_split_of_mem_tokens (List.mem_map_of_mem hmem)
  exact hfresh (hpart.trans ⟨front, back, ht.symm⟩)

variable (hfresh : ¬ new.val <:+: t) (hnormal : NormalText d old.val new.val t)

include hfresh hnormal

/-- The root and what follows it, there and back. On the way the root's tag is rewritten
once more by `extra`. -/
theorem exists_thereAndBack {extra : List Rewriter} (hextra : ∀ r ∈ extra, IsStep r)
    (hnormalExtra : NormalRun extra old.val new.val
      (run (startSteps d old.val false root.token) old.val new.val root.token.text)) :
    ∃ there further back after',
      ThereAndBack d old.val new.val false root.token extra there further back ∧
      Segment.RestoredBehind d old.val new.val false root after there further back after' := by
  have hfreshRoot := h.fresh hfresh
  have hnormalRoot : Segment.NormalStarts d old.val new.val false (root :: after) := by
    intro visit hvisit
    apply hnormal.starts visit
    rw [h.segments]
    exact Segment.visited_append_of_inert h.inert old.val new.val hvisit
  refine Segment.exists_revised_cons h.isCut_root h.isStart (hfreshRoot root List.mem_cons_self)
    hnormalRoot hextra hnormalExtra fun met rest hsuffix hnormalRest => ?_
  exact Segment.exists_revised_back
    (fun x hx => h.isCut_root x (List.mem_cons_of_mem _ (hsuffix.subset hx)))
    (fun x hx => hfreshRoot x (List.mem_cons_of_mem _ (hsuffix.subset hx))) hnormalRest

/-- The list on the root is in normal form where it is rewritten. -/
theorem normalRun_states : NormalRun [inSlot Word.states list] old.val new.val
    (run (startSteps d old.val false root.token) old.val new.val root.token.text) := by
  have hnoExtra : ∀ r ∈ ([] : List Rewriter), IsStep r := by simp
  obtain ⟨there, further, back, after', htag, hbehind⟩ :=
    h.exists_thereAndBack hfresh hnormal hnoExtra trivial
  have hthere := h.recut (Segment.recut_retag (htag.isCut there (by simp))) hbehind.recut
  have hrevised := (renameState_recut h.recut_self hthere h.inert h.isStart hbehind.revised).1
  rw [h.source] at hrevised
  obtain ⟨start, hsplit⟩ := splitAtRoot_recut hthere h.inert h.isStart
  rw [htag.renamed]
  exact ⟨NormalList.normal (hnormal.root _ (by rw [hrevised]; exact hsplit)), trivial⟩

end

end RootAt

/-- A text with a root is restored. -/
theorem renameState_renameState_of_root (d : Dialect) (old new : StateName) {t : Text}
    (hany : ∃ x ∈ (scan t).segments, x.token.isElement = true) (hfresh : ¬ new.val <:+: t)
    (hnormal : NormalText d old.val new.val t) :
    renameState d new.val old.val (renameState d old.val new.val t).text =
      ⟨t, (renameState d old.val new.val t).complete⟩ := by
  obtain ⟨before, root, after, hsplit, hbefore, hroot⟩ :=
    Segment.exists_root (Scan.depthAfter_scan t) hany
  have h : RootAt t before root after := ⟨hsplit, hbefore, hroot⟩
  have hstates : ∀ r ∈ [inSlot Word.states list], IsStep r :=
    fun r hr => Or.inr (Or.inr (List.mem_singleton.mp hr))
  obtain ⟨there, further, back, after', htag, hbehind⟩ :=
    h.exists_thereAndBack hfresh hnormal hstates (h.normalRun_states hfresh hnormal)
  have hrecut : ∀ text ∈ [there, further, back], Segment.Recut root (root.retag text) :=
    fun text htext => Segment.recut_retag (htag.isCut text htext)
  have hforward := (renameState_recut h.recut_self (h.recut (hrecut there (by simp)) hbehind.recut)
    hbefore hroot hbehind.revised).2
  have hbackward := (renameState_recut (h.recut (hrecut further (by simp)) hbehind.recut)
    (h.recut (hrecut back (by simp)) h.recut_after) hbefore hroot hbehind.revisedBack).2
  have hthereText : (root.retag there).token.text = there := rfl
  have hbackText : (root.retag back).token.text = back := rfl
  rw [h.source, hthereText, htag.extended] at hforward
  rw [hbackText, htag.restored] at hbackward
  rw [hforward]
  refine hbackward.trans ?_
  exact congrArg (Outcome.mk · _) h.source

/-- **Renaming a state there and back restores the text**, and both times the same
part of the text has been looked at. -/
theorem renameState_renameState (d : Dialect) {old new t : Text} (hold : isStateName old = true)
    (hnew : isStateName new = true) (hfresh : ¬ new <:+: t) (hnormal : NormalText d old new t) :
    (renameState d new old (renameState d old new t).text).text = t ∧
      (renameState d new old (renameState d old new t).text).complete =
        (renameState d old new t).complete := by
  by_cases hany : ∃ x ∈ (scan t).segments, x.token.isElement = true
  · have hback : renameState d new old (renameState d old new t).text =
        ⟨t, (renameState d old new t).complete⟩ :=
      renameState_renameState_of_root d ⟨old, hold⟩ ⟨new, hnew⟩ hany hfresh hnormal
    rw [hback]
    exact ⟨rfl, rfl⟩
  · have hinert : ∀ x ∈ (scan t).segments, x.token.isElement = false := fun x hx =>
      Bool.eq_false_iff.mpr fun h => hany ⟨x, hx, h⟩
    rw [renameState_of_inert hinert, renameState_of_inert hinert]
    exact ⟨rfl, rfl⟩

/-- A text that breaks off inside of an element, with every place where a state is
named. -/
theorem renameState_renameState_unclosed :
    let t := "<e:Skin states='up,down' currentState=\"up\"><State name='up' includeIn=' up'/>
      <Declarations a.up=''/><b includeIn=\"down,up\" width.up='3'/><c></b".toList
    let up := ['u', 'p']
    let held := ['h', 'e', 'l', 'd']
    (isStateName up = true ∧ isStateName held = true ∧ ¬ held <:+: t ∧
        NormalText Dialect.standard up held t ∧
        (renameState Dialect.standard up held t).text ≠ t) ∧
      (renameState Dialect.standard held up (renameState Dialect.standard up held t).text).text =
        t ∧
      (renameState Dialect.standard held up
        (renameState Dialect.standard up held t).text).complete =
          (renameState Dialect.standard up held t).complete := by
  intro t up held
  have hup : isStateName up = true := by decide
  have hheld : isStateName held = true := by decide
  have hfresh : ¬ held <:+: t := by decide +kernel
  have hnormal : NormalText Dialect.standard up held t := by decide +kernel
  have hchanged : (renameState Dialect.standard up held t).text ≠ t := by decide +kernel
  exact ⟨⟨hup, hheld, hfresh, hnormal, hchanged⟩,
    renameState_renameState Dialect.standard hup hheld hfresh hnormal⟩

end SkinMarkup
