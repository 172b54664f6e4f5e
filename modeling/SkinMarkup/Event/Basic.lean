import SkinMarkup.Text.Blank
import SkinMarkup.Text.Search

/-!
# Markup events

A document is a sequence of events: runs of text, tags, CDATA sections, and
comments, instructions and declarations that leave no trace in the tree. An
event keeps enough to give back the text it was cut from, see `Event.source`.
-/

namespace SkinMarkup

/-- One piece of a document. -/
inductive Event where
  /-- The characters between two pieces of markup, as they are written. -/
  | text (raw : Text)
  /-- A start tag `<content>`. -/
  | opening (content : Text)
  /-- A tag `<content/>` without an end tag. -/
  | empty (content : Text)
  /-- An end tag `</content>`. -/
  | closing (content : Text)
  /-- A section `<![CDATA[content]]>`. -/
  | cdata (content : Text)
  /-- A comment, instruction or declaration, as it is written. -/
  | aside (raw : Text)
deriving DecidableEq

/-- What makes markup unreadable. -/
inductive MarkupFault where
  /-- `<!` is followed by nothing known. -/
  | unknownMarkup
  | unclosedInstruction
  | unclosedComment
  | unclosedDoctype
  | unclosedCdata
  | unclosedTag
  /-- `<!DOCTYPE` names no document type. -/
  | unnamedDoctype
  /-- An end tag where nothing is open. -/
  | strayEnd (name : Text)
  /-- An end tag of another element than the innermost open one. -/
  | mismatchedEnd (expected found : Text)
deriving DecidableEq

namespace MarkupFault

def message : MarkupFault → String
  | unknownMarkup => "syntax error: unknown or missed symbol in markup"
  | unclosedInstruction =>
    "syntax error: processing instruction or xml declaration not closed: " ++
      "`?>` not found before end of input"
  | unclosedComment => "syntax error: comment not closed: `-->` not found before end of input"
  | unclosedDoctype => "syntax error: DOCTYPE not closed: `>` not found before end of input"
  | unclosedCdata => "syntax error: CDATA not closed: `]]>` not found before end of input"
  | unclosedTag => "syntax error: tag not closed: `>` not found before end of input"
  | unnamedDoctype =>
    "ill-formed document: `<!DOCTYPE>` declaration does not contain a name of a document type"
  | strayEnd name =>
    "ill-formed document: close tag `</" ++ String.ofList name ++ ">` does not match any open tag"
  | mismatchedEnd expected found =>
    "ill-formed document: expected `</" ++ String.ofList expected ++ ">`, but `</" ++
      String.ofList found ++ ">` was found"

end MarkupFault

namespace Event

/-- The text that an event was cut from. -/
def source : Event → Text
  | text raw => raw
  | opening content => '<' :: content ++ ['>']
  | empty content => '<' :: content ++ ['/', '>']
  | closing content => '<' :: '/' :: content ++ ['>']
  | cdata content => ['<', '!', '[', 'C', 'D', 'A', 'T', 'A', '['] ++ content ++ [']', ']', '>']
  | aside raw => raw

/-- The name in an end tag: trailing white space does not belong to it,
unless there is nothing else. -/
def endName (content : Text) : Text :=
  let name := dropEndWhile isMarkupSpace content
  if name = [] then content else name

end Event

end SkinMarkup
