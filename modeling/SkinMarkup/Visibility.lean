import SkinMarkup.Dialect
import SkinMarkup.Document.Parse
import SkinMarkup.Scan.Token
import SkinMarkup.State.StateList
import SkinMarkup.Vocabulary

/-!
# In which states an element is visible

An element is visible in every state unless it says otherwise. A suffix of
its local name after a dot pins it to one state, `includeIn` lists the states
it appears in, and `excludeFrom` those it is missing from; the first of these
decides. The root of a skin is always visible, and so is everything as long
as no state is chosen.

The same question is answered for a tag of a tree and for a token of a text.
-/

namespace SkinMarkup

/-- What the visibility of an element depends on. -/
structure Membership where
  localName : Text
  includeIn : Option Text
  excludeFrom : Option Text
deriving DecidableEq

namespace Membership

def ofTag (t : Tag) : Membership :=
  ⟨t.localName, t.head.value? Word.includeIn, t.head.value? Word.excludeFrom⟩

/-- Whether an element is visible in a state. -/
def visibleIn (d : Dialect) (state : Text) (m : Membership) : Bool :=
  if m.localName = d.skin then
    true
  else
    match cutAt '.' m.localName with
    | some (_, pinned) => pinned == state
    | none =>
      match m.includeIn, m.excludeFrom with
      | some included, _ => (StateList.entries included).contains state
      | none, some excluded => !(StateList.entries excluded).contains state
      | none, none => true

/-- The states that an element appears in, if it lists states at all. -/
def states (allStates : List Text) (m : Membership) : List Text :=
  match m.includeIn, m.excludeFrom with
  | some included, _ => StateList.entries included
  | none, some excluded =>
    allStates.filter fun s => !(StateList.entries excluded).contains s
  | none, none => []

end Membership

/-- The chosen state. An empty name chooses none. -/
def activeState (state : Option Text) : Option Text :=
  state.filter (· ≠ [])

namespace Tag

/-- Whether a tag is visible in a state. -/
def isVisible (d : Dialect) (state : Option Text) (t : Tag) : Bool :=
  match activeState state with
  | none => true
  | some state => (Membership.ofTag t).visibleIn d state

/-- Whether a tag lists states and appears in exactly one. The root of a skin
never does. -/
def isSingleState (d : Dialect) (allStates : List Text) (t : Tag) : Bool :=
  t.localName != d.skin && ((Membership.ofTag t).states allStates).length == 1

end Tag

namespace Token

/-- Whether a token's text can say anything about states. -/
def mentionsStates (t : Token) : Bool :=
  containsWord Word.includeIn t.text || containsWord Word.excludeFrom t.text ||
    t.text.contains '.'

/-- The text of a start token as an empty element without a prefix. -/
def asElement (t : Token) : Text :=
  let text :=
    match t.nsPrefix? with
    | some p => '<' :: t.text.drop (p.length + 2)
    | none => t.text
  if t.kind = .opening then text.dropLast ++ ['/', '>'] else text

/-- Whether a token is visible in a state. Only start tokens can be hidden,
and only if they can be read. -/
def isVisible (d : Dialect) (state : Option Text) (t : Token) : Bool :=
  match activeState state with
  | none => true
  | some state =>
    if t.isStart && t.mentionsStates && t.nsPrefix? != some d.workingPrefix then
      match parse ParseOptions.brief t.asElement with
      | .ok document => (Membership.ofTag document.root).visibleIn d state
      | .error _ => true
    else
      true

end Token

end SkinMarkup
