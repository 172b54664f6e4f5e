import SkinMarkup.Document.Parse

/-!
# A store of documents

A cache keeps at most `capacity` values under their keys, oldest first. When
it is full, the value that was added first makes room. Looking a value up or
storing it again does not make it younger.

A `Reader` keeps the documents that it has read without an issue.
-/

namespace SkinMarkup

/-- Values under distinct keys, oldest first. -/
structure Cache (α : Type) where
  capacity : Nat
  entries : List (Text × α)

namespace Cache

variable {α : Type}

/-- The number of values that a cache keeps if nothing else is said. -/
def standardCapacity : Nat :=
  40

/-- A cache without values. That room for a very large number of values cannot be
allocated is left out: there is a cache of every capacity. -/
def empty (capacity : Nat) : Cache α :=
  ⟨capacity, []⟩

def size (c : Cache α) : Nat :=
  c.entries.length

def get? (c : Cache α) (key : Text) : Option α :=
  c.entries.lookup key

def contains (c : Cache α) (key : Text) : Bool :=
  (c.get? key).isSome

/-- Stores a value. A key that is present keeps its age. -/
def insert (c : Cache α) (key : Text) (value : α) : Cache α :=
  if c.capacity = 0 then
    c
  else if c.contains key then
    { c with entries := c.entries.map fun entry => if entry.1 = key then (key, value) else entry }
  else
    let kept := c.entries.drop (c.entries.length + 1 - c.capacity)
    { c with entries := kept ++ [(key, value)] }

def clear (c : Cache α) : Cache α :=
  { c with entries := [] }

end Cache

/-- A reader with a store of documents. -/
structure Reader where
  cache : Cache Document

namespace Reader

def withCapacity (capacity : Nat) : Reader :=
  ⟨Cache.empty capacity⟩

/-- Reads a text, unless its document is in the store. A document without
issues goes there. -/
def parse (r : Reader) (options : ParseOptions) (t : Text) :
    Except ParseFailure Document × Reader :=
  match if options.cached then r.cache.get? t else none with
  | some document => (.ok document, r)
  | none =>
    match SkinMarkup.parse options t with
    | .error failure => (.error failure, r)
    | .ok document =>
      if options.cached && document.issues.isEmpty then
        (.ok document, ⟨r.cache.insert t document⟩)
      else
        (.ok document, r)

end Reader

end SkinMarkup
