import SkinMarkup.Attribute.Reader
import SkinMarkup.Entity
import SkinMarkup.Event.Basic
import SkinMarkup.Position

/-!
# What can be wrong with a document

An `Issue` names a cause and, where there is one, the place in the document.
`Issue.message` is the only function that words it.
-/

namespace SkinMarkup

/-- Why the text of a document cannot be read. -/
inductive Malformation where
  | markup (fault : MarkupFault)
  | attributeList (fault : AttributeFault)
  | attributeValue (fault : EntityFault)
  | textContent (fault : EntityFault)
deriving DecidableEq

namespace Malformation

def message : Malformation → String
  | markup fault => fault.message
  | attributeList fault => "Attribute error: " ++ fault.message
  | attributeValue fault => "Invalid attribute value: " ++ fault.message
  | textContent fault => "Invalid text content: " ++ fault.message

end Malformation

/-- Something that is wrong with a document or with a request to change it. -/
inductive Issue where
  | malformed (cause : Malformation) (place : Option Place)
  /-- An element is still open at the end of the document. -/
  | unclosed (name : Text) (place : Option Place)
  /-- An element follows the root. -/
  | multipleRoots (place : Option Place)
  /-- Text that is not blank stands outside the root. -/
  | textOutsideRoot (place : Option Place)
  /-- There is no element. -/
  | emptyDocument
  /-- There is no tag at a location in the tree. -/
  | missingTag (location : List Nat)
deriving DecidableEq

namespace Issue

def place? : Issue → Option Place
  | malformed _ place => place
  | unclosed _ place => place
  | multipleRoots place => place
  | textOutsideRoot place => place
  | emptyDocument => none
  | missingTag _ => none

/-- An issue without its place. -/
def withoutPlace : Issue → Issue
  | malformed cause _ => malformed cause none
  | unclosed name _ => unclosed name none
  | multipleRoots _ => multipleRoots none
  | textOutsideRoot _ => textOutsideRoot none
  | emptyDocument => emptyDocument
  | missingTag location => missingTag location

/-- How a place is added to a message. -/
def placeSuffix : Option Place → String
  | none => ""
  | some place => " at line " ++ toString place.line ++ ", column " ++ toString place.column

def message : Issue → String
  | malformed cause place => "XML syntax error: " ++ cause.message ++ placeSuffix place
  | unclosed name place => "Unclosed tag <" ++ String.ofList name ++ ">" ++ placeSuffix place
  | multipleRoots place => "Invalid XML: multiple root elements" ++ placeSuffix place
  | textOutsideRoot place => "Text data outside of root node" ++ placeSuffix place
  | emptyDocument => "Empty XML document: no root element found"
  | missingTag location =>
    "No tag at location [" ++ ", ".intercalate (location.map toString) ++ "]"

end Issue

end SkinMarkup
