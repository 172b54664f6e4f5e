import SkinMarkup.Scan.Basic

/-!
# Going through a scan token by token

A cursor hands out the tokens of a text one at a time and keeps count of the
elements that are open. It learns that a scan failed only when it gets there;
from then on it stands at the end of the text. The tokens that it keeps are at
any time those that a scan from its position and its depth would find.
-/

namespace SkinMarkup

/-- A position in a scan. -/
structure Cursor where
  /-- What has not been handed out yet. -/
  pending : List Segment
  /-- Where the scan fails after that, if it does. -/
  fault : Option Nat
  /-- The length of the text. -/
  length : Nat
  /-- The end of the last token. -/
  position : Nat
  /-- The number of open elements. -/
  depth : Nat
  /-- Where the scan failed, once that is known. -/
  failure : Option Nat
deriving DecidableEq

namespace Cursor

/-- The start of a text. -/
def ofText (t : Text) : Cursor :=
  let s := scan t
  ⟨s.segments, s.failure, width t, 0, 0, none⟩

/-- No failure has been met and nothing is open. -/
def isClean (c : Cursor) : Bool :=
  c.failure.isNone && c.depth == 0

/-- The cursor after a token, with `rest` still to come. -/
def pass (c : Cursor) (token : Token) (rest : List Segment) : Cursor :=
  { c with
    pending := rest
    position := token.stop
    depth := (token.kind.depthAfter c.depth).getD c.depth }

/-- The cursor where no token is left. -/
def finish (c : Cursor) : Cursor :=
  match c.fault with
  | some offset => { c with pending := [], failure := some offset, position := c.length }
  | none => { c with pending := [] }

/-- Hands out the next token. -/
def next (c : Cursor) : Option Token × Cursor :=
  match c.pending with
  | s :: rest => (some s.token, c.pass s.token rest)
  | [] => (none, c.finish)

/-- Passes over tokens up to an end tag that leaves `target` elements open. -/
def skipTo (target : Nat) (c : Cursor) : List Segment → Option Nat × Cursor
  | [] => (none, c.finish)
  | s :: rest =>
    let c := c.pass s.token rest
    if s.token.kind = .closing ∧ c.depth = target then
      (some s.token.stop, c)
    else
      skipTo target c rest

/-- Passes over the element that a token starts and returns where it ends. A
token that is no start tag ends itself. -/
def skipSubtree (c : Cursor) (token : Token) : Option Nat × Cursor :=
  if token.kind = .opening then
    c.skipTo (c.depth - 1) c.pending
  else
    (some token.stop, c)

end Cursor

end SkinMarkup
