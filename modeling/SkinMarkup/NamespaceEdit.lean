import SkinMarkup.Edit.Revision
import SkinMarkup.TagText.Basic

/-!
# Namespace declarations in a text

Declarations are listed, added and dropped in the text of the tags, so that
nothing else changes. Adding goes after the last declaration of the root, or
else after its last attribute. Cleaning drops the declarations of prefixes
that no element has.
-/

namespace SkinMarkup

namespace WrittenPiece

/-- The namespace that a written attribute declares. A declared prefix is not
empty, and blanks around the URI do not count. -/
def declaration? (p : WrittenPiece) : Option Namespace :=
  if p.name = Namespace.keyword then
    some ⟨[], trim p.value⟩
  else
    ((after? Namespace.marker p.name).filter (· ≠ [])).map fun nsPrefix => ⟨nsPrefix, trim p.value⟩

/-- Divides attributes after the last one that declares a namespace, if there
is one. -/
def splitAfterDeclarations : List WrittenPiece → Option (Text × Text)
  | [] => none
  | p :: ps =>
    match splitAfterDeclarations ps with
    | some (before, after) => some (p.source ++ before, after)
    | none =>
      if p.declaration?.isSome then some (p.source, ps.flatMap source) else none

end WrittenPiece

namespace TagText

/-- The namespaces that a tag declares. -/
def declarations (t : TagText) : List Namespace :=
  t.pieces.filterMap WrittenPiece.declaration?

end TagText

/-- The namespaces that the root of a text declares. -/
def rootNamespaces (t : Text) : List Namespace :=
  match splitAtRoot t with
  | none => []
  | some split => (TagText.ofText split.root.text).declarations

/-- Text that was inserted, and the byte before which it went. -/
structure Insertion where
  offset : Nat
  content : Text
deriving DecidableEq

/-- The outcome of adding a namespace. -/
structure NamespaceOutcome where
  outcome : Outcome
  added : Option Insertion
deriving DecidableEq

/-- The written form of a declaration, with a space in front. -/
def Namespace.render (n : Namespace) : Text :=
  ' ' :: Namespace.attributeName n.nsPrefix ++ ['=', '"'] ++ n.uri ++ ['"']

/-- Divides the text of a root where a declaration goes. -/
def splitForDeclaration (root : Token) : Text × Text :=
  let divided := TagText.ofText root.text
  match WrittenPiece.splitAfterDeclarations divided.pieces with
  | some (before, after) => (divided.head ++ before, after ++ divided.tail)
  | none =>
    let head := insertionHead root.kind root.text
    (head, root.text.drop head.length)

/-- Declares a namespace on the root. Nothing changes if it is declared
already. A prefix that is bound to another URI stays so, and the edit is not
complete; neither is it without a root. -/
def addNamespace (n : Namespace) (t : Text) : NamespaceOutcome :=
  match splitAtRoot t with
  | none => ⟨⟨t, false⟩, none⟩
  | some split =>
    let declared := (TagText.ofText split.root.text).declarations
    if declared.contains n then
      ⟨⟨t, true⟩, none⟩
    else if declared.any fun d => d.nsPrefix = n.nsPrefix then
      ⟨⟨t, false⟩, none⟩
    else
      let (before, after) := splitForDeclaration split.root
      let content := n.render
      ⟨⟨split.before ++ before ++ content ++ after ++ split.after, true⟩,
        some ⟨width split.before + width before, content⟩⟩

/-- The prefixes of the element tokens in a list. -/
def usedPrefixes (tokens : List Token) : List Text :=
  (tokens.filter (·.isElement)).filterMap (·.nsPrefix?)

/-- A tag's text without the declarations of prefixes that are not used. -/
def dropUnused (used : List Text) (tag : Text) : Text :=
  (TagText.ofText tag).without fun p =>
    p.declaration?.any fun d => d.nsPrefix ≠ [] && !used.contains d.nsPrefix

/-- Drops every declaration of a prefix that no element name has. -/
def cleanNamespaces (t : Text) : Outcome :=
  let used := usedPrefixes (scan t).tokens
  reviseText (fun (_ : Unit) token =>
    ((), if token.isStart then .replace (dropUnused used token.text) else .keep)) () t

/-- A text without an instruction at its start. What stands between the
instruction and the next `<` goes too. -/
def removeHead (t : Text) : Text :=
  match after? ['<', '?'] (trimStart t) with
  | none => t
  | some content =>
    match cutAtWord ['?', '>'] content with
    | none => t
    | some (_, rest) =>
      match rest.dropWhile (· != '<') with
      | [] => rest
      | markup => markup

end SkinMarkup
