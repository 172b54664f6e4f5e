import SkinMarkup.Text.Basic

/-!
# The outcome of an edit

An edit of a text always has a text as its outcome. It is complete if the
whole text could be looked at; an edit of a text that is cut off or broken
somewhere is not.
-/

namespace SkinMarkup

/-- An edited text. -/
structure Outcome where
  text : Text
  complete : Bool
deriving DecidableEq

namespace Outcome

/-- Edits an edited text further. -/
def andThen (o : Outcome) (edit : Text → Outcome) : Outcome :=
  let next := edit o.text
  ⟨next.text, o.complete && next.complete⟩

end Outcome

end SkinMarkup
