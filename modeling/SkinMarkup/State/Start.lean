import SkinMarkup.Edit.Revision
import SkinMarkup.TagText.Basic
import SkinMarkup.TagText.ValueSlot
import SkinMarkup.Visibility
import SkinMarkup.Vocabulary

/-!
# The state that a document starts in

The root's attribute `currentState` is set, replaced or removed. A new one
goes in front of the first declared prefix, or else after the last attribute.
-/

namespace SkinMarkup

/-- Attributes with more text in front of the name of the first one that
declares a prefix, if there is one. -/
def insertBeforeDeclaration (raw : Text) : List WrittenPiece → Option Text
  | [] => none
  | p :: ps =>
    if startsWith Namespace.marker p.name then
      some (p.skipped ++ p.lead ++ raw ++ (p.name ++ p.assign ++ p.quoted) ++
        ps.flatMap WrittenPiece.source)
    else
      (insertBeforeDeclaration raw ps).map (p.source ++ ·)

/-- The text of a tag with a state to start in, which it had not. -/
def insertStartState (kind : TokenKind) (state tag : Text) : Text :=
  let divided := TagText.ofText tag
  let raw := Word.currentState ++ ['=', '"'] ++ state ++ ['"', ' ']
  match insertBeforeDeclaration raw divided.pieces with
  | some pieces => divided.head ++ pieces ++ divided.tail
  | none => insertAttribute kind Word.currentState state tag

/-- The text of a root that names the state to start in. -/
def startStateTag (kind : TokenKind) (state : Option Text) (tag : Text) : Text :=
  match ValueSlot.find? Word.currentState tag, state with
  | some slot, some state => slot.replace state
  | some slot, none => slot.remove
  | none, none => tag
  | none, some state => insertStartState kind state tag

/-- Sets the state that a document starts in, or removes it. -/
def setStartState (state : Option Text) (t : Text) : Outcome :=
  match editRoot (fun root => some (startStateTag root.kind (activeState state) root.text)) t with
  | some text => ⟨text, true⟩
  | none => ⟨t, false⟩

end SkinMarkup
