import SkinMarkup.Document.Basic
import SkinMarkup.Event.Lexer
import SkinMarkup.TagText.Basic

/-!
# Building a tree from events

A builder holds the open tags, innermost first, and the root once it is
closed. `Builder.step` takes in one event and `Builder.run` a list of them,
up to the first failure. A tag that is closed is added to the innermost tag
that is still open.

Text sticks to a tag only as long as the tag has no children. The namespace
of a tag is looked up in its own declarations and then in those of the open
tags, from the innermost outwards.
-/

namespace SkinMarkup

/-! ## Attributes -/

/-- A written attribute with its references replaced. Its offsets are those of
the first attribute of the same name in the text of the tag, which starts at
byte `offset`. -/
def WrittenAttribute.place (offset : Nat) (tag : TagText) (a : WrittenAttribute) :
    Except Malformation Attribute :=
  match unescape a.value with
  | .error fault => .error (.attributeValue fault)
  | .ok value =>
    match tag.attributes.find? fun entry => entry.1.name = a.name with
    | some (_, spans) =>
      .ok ⟨a.name, value, offset + spans.name.start, offset + spans.value.start,
        offset + spans.value.stop⟩
    | none => .ok (Attribute.unplaced a.name value)

/-- The attributes in the content of a start tag. The tag stands at byte
`offset`, where the source shows the text `shown`. -/
def attributesOf (offset : Nat) (shown content : Text) : Except Malformation (List Attribute) := do
  let (written, fault) := WrittenAttribute.readAll content
  let attributes ← written.mapM (WrittenAttribute.place offset (TagText.ofText shown))
  match fault with
  | some fault => .error (.attributeList fault)
  | none => .ok attributes

/-! ## Open tags -/

/-- The tags that are being built. -/
structure Builder where
  /-- The open tags, innermost first. -/
  opened : List Tag
  /-- The root, once it is closed. -/
  root : Option Tag

namespace Builder

/-- Nothing has been read. -/
def start : Builder :=
  ⟨[], none⟩

/-- Adds a closed tag to the innermost open tag. Outside all tags it becomes
the root. -/
def attach (b : Builder) (t : Tag) : Builder :=
  match b.opened with
  | parent :: others => { b with opened := parent.push t :: others }
  | [] => { b with root := b.root.or (some t) }

/-- The declarations in force, innermost first. -/
def scopes (b : Builder) : List (List Namespace) :=
  b.opened.map (·.head.declarations)

/-- The location of a tag that is opened now, inside open tags with the innermost
first. It leads to the innermost tag and then behind the children that this has so
far. -/
def nextLocation : List Tag → List Nat
  | [] => []
  | parent :: _ => parent.head.location ++ [parent.childCount]

/-- Opens a tag with the given content. Its end is not known yet: it stops
where its start tag does. -/
def openTag (s : Source) (b : Builder) (offset : Nat) (content source : Text) :
    Except ParseFailure Tag := do
  if b.opened.isEmpty && b.root.isSome then
    .error (.issue (.multipleRoots (s.place offset)))
  else
    let shown ← s.shown offset source
    let attributes ← (attributesOf offset shown content).mapError (s.malformed offset)
    let name := WrittenAttribute.elementName content
    let scopes := Attribute.declarations attributes :: b.scopes
    let place := s.lines.locate offset
    let stop := offset + width source
    let head : TagHead :=
      { name
        uri := ((prefixOf name).bind fun p => Namespace.resolve p scopes).getD []
        attributes
        start := offset
        stop
        startTagEnd := stop
        endTagStart := stop
        selfClosing := false
        line := place.line
        column := place.column
        location := nextLocation b.opened }
    return ⟨head, none, []⟩

/-- Gives a tag its end: its end tag starts and stops at the given offsets. -/
def closeTag (endTagStart stop : Nat) (t : Tag) : Tag :=
  { t with head := { t.head with endTagStart, stop } }

/-- Adds text to the innermost open tag, unless it has children already or
the text is empty. -/
def attachLeaf (b : Builder) (leaf : Leaf) : Builder :=
  match b.opened with
  | [] => b
  | t :: others =>
    if t.childCount = 0 ∧ leaf.content ≠ [] then
      { b with opened := { t with leaf := some leaf } :: others }
    else
      b

/-! ## Taking in events -/

/-- Takes in a run of text. Blank text is ignored. -/
def stepText (s : Source) (b : Builder) (offset : Nat) (raw : Text) :
    Except ParseFailure Builder := do
  let shown ← s.shown offset raw
  if trim shown = [] then
    return b
  else
    let content ← (unescape raw).mapError fun fault => s.malformed offset (.textContent fault)
    if b.opened.isEmpty then
      .error (.issue (.textOutsideRoot (s.place offset)))
    else
      let leading := width shown - width (trimStart shown)
      return b.attachLeaf
        ⟨.text, trim content, ⟨offset + leading, offset + width (trimEnd shown)⟩⟩

/-- Takes in an end tag, which has to name the innermost open tag. -/
def stepClosing (s : Source) (b : Builder) (offset : Nat) (content source : Text) :
    Except ParseFailure Builder :=
  let name := Event.endName content
  match b.opened with
  | [] => .error (s.malformed offset (.markup (.strayEnd name)))
  | t :: others =>
    if t.name = name then
      .ok ({ b with opened := others }.attach (closeTag offset (offset + width source) t))
    else
      .error (s.malformed offset (.markup (.mismatchedEnd t.name name)))

/-- Takes in the event at byte `offset`. -/
def step (s : Source) (b : Builder) (offset : Nat) (event : Event) :
    Except ParseFailure Builder :=
  match event with
  | .text raw => b.stepText s offset raw
  | .opening content => do
    let t ← b.openTag s offset content event.source
    return { b with opened := t :: b.opened }
  | .empty content => do
    let t ← b.openTag s offset content event.source
    return b.attach { t with head := { t.head with selfClosing := true } }
  | .closing content => b.stepClosing s offset content event.source
  | .cdata content =>
    .ok (b.attachLeaf ⟨.cdata, trim content, ⟨offset, offset + width event.source⟩⟩)
  | .aside _ => .ok b

/-- Takes in events up to the first failure, which leaves the tree as it was
built before. -/
def run (s : Source) (b : Builder) (offset : Nat) : List Event → Builder × Option ParseFailure
  | [] => (b, none)
  | event :: events =>
    match b.step s offset event with
    | .error failure => (b, some failure)
    | .ok b => b.run s (offset + width event.source) events

/-! ## The end of the source -/

/-- Closes open tags at byte `stop`, innermost first, each around the one
before. -/
def closeAll (stop : Nat) (inner : Option Tag) : List Tag → Option Tag
  | [] => inner
  | t :: others =>
    closeAll stop (some (closeTag stop stop { t with tags := t.tags ++ inner.toList })) others

/-- The root, after closing at byte `stop` what is still open. -/
def rootClosedAt (b : Builder) (stop : Nat) : Option Tag :=
  b.root.or (closeAll stop none b.opened)

end Builder

namespace Source

/-- Reads the events of a source into a builder. A failure to cut the text
comes after the events before it. -/
def build (s : Source) : Builder × Option ParseFailure :=
  let (events, fault) := Event.lex s.body
  match Builder.start.run s 0 events with
  | (b, some failure) => (b, some failure)
  | (b, none) =>
    match fault with
    | some (fault, offset) => (b, some (s.malformed offset (.markup fault)))
    | none => (b, none)

/-- The issues of a source that was read to its end: the tags that are still
open, innermost first. -/
def unclosedIssues (s : Source) (b : Builder) : List Issue :=
  b.opened.map fun t => .unclosed t.name (s.place t.head.start)

/-- The document in a source, with the places of its issues. Whatever is open
is closed at the end of the source. A source without an element has a root
without a name. -/
def read (s : Source) : Except ParseFailure Document :=
  let (b, failure) := s.build
  let root := b.rootClosedAt (width s.text)
  match failure with
  | some .misaligned => .error .misaligned
  | some (.issue issue) => .ok ⟨root.getD (Tag.unplaced []), [issue]⟩
  | none =>
    match root with
    | some root => .ok ⟨root, s.unclosedIssues b⟩
    | none => .ok ⟨Tag.unplaced [], [.emptyDocument]⟩

end Source

end SkinMarkup
