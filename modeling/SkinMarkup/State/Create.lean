import SkinMarkup.Dialect
import SkinMarkup.Edit.Revision
import SkinMarkup.State.StateList
import SkinMarkup.TagText.Basic
import SkinMarkup.Vocabulary

/-!
# Creating a state

A new state is blank or a copy of another one. In a blank state none of the
components directly below the root is visible; a copy shows what its model
shows and takes over the attributes that apply to the model alone. In both
cases the state is added to the root's list.
-/

namespace SkinMarkup

/-! ## The list on the root -/

/-- Adds a state to the list on the root, which gets one if it has none. -/
def declareState (state t : Text) : Outcome :=
  let edited := editRoot (fun root =>
    match ValueSlot.find? Word.states root.text with
    | some _ => some ((StateList.extend Word.states state (fun _ => true) root.text).getD root.text)
    | none => some (insertAttribute root.kind Word.states state root.text)) t
  match edited with
  | some text => ⟨text, true⟩
  | none => ⟨t, false⟩

/-! ## A blank state -/

/-- Whether an element is a component: it is not for the editor alone, and
its local name starts with a capital letter. -/
def Dialect.isComponent (d : Dialect) (token : Token) : Bool :=
  token.nsPrefix? != some d.workingPrefix &&
    token.localName.head?.any fun c => decide ('A' ≤ c) && decide (c ≤ 'Z')

/-- The text of a component that is to be missing from a new state. Nothing
changes if it lists the states it appears in or if there are no other states
to list. -/
def scopeOut (kind : TokenKind) (allStates : List Text) (state tag : Text) : Option Text :=
  if (ValueSlot.find? Word.includeIn tag).isSome then
    none
  else if (ValueSlot.find? Word.excludeFrom tag).isSome then
    StateList.extend Word.excludeFrom state (fun _ => true) tag
  else if allStates = [] then
    none
  else
    some (insertAttribute kind Word.includeIn (StateList.render allStates) tag)

/-- Decides about a token in a blank state. The memory says for every open
element, innermost first, whether its children are directly below the root;
those of a container are if the container is. -/
def blankAction (d : Dialect) (allStates : List Text) (state : Text) (levels : List Bool)
    (token : Token) : List Bool × Action :=
  if token.kind = .closing then
    (levels.drop 1, .keep)
  else if !token.isStart then
    (levels, .keep)
  else if token.localName = d.declarations then
    (levels, .pass)
  else
    match levels with
    | [] => (if token.kind = .opening then [true] else [], .keep)
    | level :: _ =>
      let container := level && d.isContainer token.localName
      let inner := if token.kind = .opening then container :: levels else levels
      if level && !container && d.isComponent token then
        match scopeOut token.kind allStates state token.text with
        | some tag => (inner, .replace tag)
        | none => (inner, .keep)
      else
        (inner, .keep)

/-! ## A copied state -/

/-- The attributes for a new state that copy those for another one, as they
are inserted into a tag. An attribute that the tag has already is not
copied. -/
def copiedAttributes (model state : Text) (pieces : List WrittenPiece) : Text :=
  pieces.flatMap fun p =>
    match stemFor? model p.name with
    | none => []
    | some stem =>
      let name := stem ++ '.' :: state
      if pieces.any fun q => q.name = name then
        []
      else
        let quote := p.quote.getD '"'
        ' ' :: name ++ ['=', quote] ++ p.value ++ [quote]

/-- A tag's text with the attributes for a new state. -/
def copyAttributes (kind : TokenKind) (model state tag : Text) : Text :=
  match copiedAttributes model state (TagText.ofText tag).pieces with
  | [] => tag
  | added => insertRaw kind added tag

/-- The text of a start tag in which a new state copies another one. Only
lists of missing states matter for a copy of the base state, which has no
name. -/
def copyTag (kind : TokenKind) (model state tag : Text) : Text :=
  if model = [] then
    editOr (StateList.extend Word.excludeFrom state fun _ => true) tag
  else
    let tag := editOr (StateList.extend Word.excludeFrom state (·.contains model)) tag
    let tag := editOr (StateList.extend Word.includeIn state (·.contains model)) tag
    copyAttributes kind model state tag

/-- Decides about a token in a copied state. -/
def copyAction (d : Dialect) (model state : Text) (token : Token) : Action :=
  if !token.isStart then .keep
  else if token.localName = d.declarations then .pass
  else .replace (copyTag token.kind model state token.text)

/-- Creates a state. Without a model it is blank. -/
def createState (d : Dialect) (allStates : List Text) (state : Text) (model : Option Text)
    (t : Text) : Outcome :=
  let edited :=
    match model with
    | none => reviseText (blankAction d allStates state) [] t
    | some model => reviseText (fun (_ : Unit) token => ((), copyAction d model state token)) () t
  edited.andThen (declareState state)

end SkinMarkup
