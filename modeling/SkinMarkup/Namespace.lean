import SkinMarkup.Text.Search

/-!
# Qualified names and namespaces

A qualified name is divided at its first colon. A namespace binds a name's
first part to a URI; it is declared by an attribute named `xmlns`, for names
without a colon, or `xmlns:p`, for names that start with `p:`.
-/

namespace SkinMarkup

/-- The part of a qualified name before its first colon, if it has one. -/
def prefixOf (name : Text) : Option Text :=
  (cutAt ':' name).map (·.1)

/-- The part of a qualified name after its first colon, or the whole name. -/
def localOf (name : Text) : Text :=
  match cutAt ':' name with
  | some (_, rest) => rest
  | none => name

/-- A binding of a prefix to a URI. The default namespace has an empty
prefix. -/
structure Namespace where
  nsPrefix : Text
  uri : Text
deriving DecidableEq

namespace Namespace

/-- The attribute that declares the default namespace. -/
def keyword : Text :=
  ['x', 'm', 'l', 'n', 's']

/-- The start of every attribute name that declares a prefix. -/
def marker : Text :=
  ['x', 'm', 'l', 'n', 's', ':']

/-- The prefix that an attribute of this name declares. -/
def declaredBy (name : Text) : Option Text :=
  if name = keyword then some [] else after? marker name

/-- The name of the attribute that declares a prefix. -/
def attributeName (nsPrefix : Text) : Text :=
  if nsPrefix = [] then keyword else marker ++ nsPrefix

/-- The URI that the first binding of a prefix in a list gives it. -/
def uriOf? (nsPrefix : Text) (bindings : List Namespace) : Option Text :=
  (bindings.find? fun binding => binding.nsPrefix = nsPrefix).map uri

/-- The URI of a prefix in a chain of scopes, innermost scope first. Within a
scope the first binding counts. -/
def resolve (nsPrefix : Text) (scopes : List (List Namespace)) : Option Text :=
  scopes.findSome? (uriOf? nsPrefix)

end Namespace

end SkinMarkup
