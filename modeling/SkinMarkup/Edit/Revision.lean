import SkinMarkup.Edit.Outcome
import SkinMarkup.Scan.Basic

/-!
# Revising the tags of a text

A revision looks at the tokens of a text from left to right and decides for
each what becomes of it. Everything it does not decide about, the gaps and
the text after the last token, is copied. `revise_keep` says that keeping
every token keeps the text.

An element that is passed over or erased is not looked into. Erasing an
element that is never closed is not possible; then the rest of the text stays
as it is.
-/

namespace SkinMarkup

/-- What becomes of a token. -/
inductive Action where
  | keep
  /-- The token gets another text. -/
  | replace (tag : Text)
  /-- The element that the token starts is copied as it is. -/
  | pass
  /-- The element that the token starts goes, with the blanks before it. -/
  | erase

namespace Segment

/-- The text of segments as it was. -/
def sourceAll (segments : List Segment) : Text :=
  segments.flatMap source

/-- The segments inside and after the element that a token starts, given what
follows the token. An empty element has nothing inside. -/
def splitAfter (token : Token) (rest : List Segment) : Option (List Segment × List Segment) :=
  if token.kind = .opening then Scan.splitElement 0 rest else some ([], rest)

theorem splitAfter_eq_some {token : Token} {rest inside after : List Segment}
    (h : splitAfter token rest = some (inside, after)) : rest = inside ++ after := by
  unfold splitAfter at h
  split at h
  · exact Scan.splitElement_eq_some h
  · cases h
    rfl

theorem length_splitAfter {token : Token} {rest inside after : List Segment}
    (h : splitAfter token rest = some (inside, after)) : after.length ≤ rest.length := by
  rw [splitAfter_eq_some h, List.length_append]
  omega

/-- Revises segments. `act` is given what is remembered of the tokens so
far. -/
def revise {σ : Type} (act : σ → Token → σ × Action) (memory : σ) (segments : List Segment) :
    Text :=
  match segments with
  | [] => []
  | s :: rest =>
    match act memory s.token with
    | (memory, .keep) => s.source ++ revise act memory rest
    | (memory, .replace tag) => s.gap ++ tag ++ revise act memory rest
    | (memory, .pass) =>
      match h : splitAfter s.token rest with
      | some (inside, after) =>
        have := length_splitAfter h
        s.source ++ sourceAll inside ++ revise act memory after
      | none => s.source ++ sourceAll rest
    | (memory, .erase) =>
      match h : splitAfter s.token rest with
      | some (_, after) =>
        have := length_splitAfter h
        trimEnd s.gap ++ revise act memory after
      | none => s.source ++ sourceAll rest
termination_by segments.length

end Segment

/-- Revises a text. The outcome is complete if the scan of the text is
clean. -/
def reviseText {σ : Type} (act : σ → Token → σ × Action) (memory : σ) (t : Text) : Outcome :=
  let s := scan t
  ⟨Segment.revise act memory s.segments ++ s.tail, s.isClean⟩

/-- Keeping every token keeps the text. -/
theorem revise_keep (t : Text) :
    (reviseText (fun (_ : Unit) _ => ((), .keep)) () t).text = t := by
  have h (segments : List Segment) :
      Segment.revise (fun (_ : Unit) _ => ((), .keep)) () segments =
        segments.flatMap Segment.source := by
    induction segments with
    | nil => simp [Segment.revise]
    | cons s rest ih => simp [Segment.revise, ih]
  simpa [reviseText, h, Scan.source] using source_scan t

namespace Segment

/-- Divides segments at the first element token: the text before it, the
token, and the segments after it. -/
def splitAtElement : List Segment → Option (Text × Token × List Segment)
  | [] => none
  | s :: rest =>
    if s.token.isElement then
      some (s.gap, s.token, rest)
    else
      (splitAtElement rest).map fun (before, token, after) => (s.source ++ before, token, after)

end Segment

/-- A text divided at the tag of its root. -/
structure RootSplit where
  before : Text
  root : Token
  after : Text

/-- Divides a text at its first element token, if that starts an element. -/
def splitAtRoot (t : Text) : Option RootSplit := do
  let s := scan t
  let (before, root, after) ← Segment.splitAtElement s.segments
  if root.isStart then
    return ⟨before, root, Segment.sourceAll after ++ s.tail⟩
  else
    none

/-- Replaces the tag of the root, if there is one and `edit` has a new text
for it. -/
def editRoot (edit : Token → Option Text) (t : Text) : Option Text := do
  let split ← splitAtRoot t
  let tag ← edit split.root
  return split.before ++ tag ++ split.after

end SkinMarkup
