import SkinMarkup.Attribute.Basic
import SkinMarkup.Attribute.Reader
import SkinMarkup.Dialect
import SkinMarkup.Document.Append
import SkinMarkup.Document.Basic
import SkinMarkup.Document.Builder
import SkinMarkup.Document.Cache
import SkinMarkup.Document.Parse
import SkinMarkup.Edit.Outcome
import SkinMarkup.Edit.Revision
import SkinMarkup.Entity
import SkinMarkup.Event.Basic
import SkinMarkup.Event.Lexer
import SkinMarkup.Indent
import SkinMarkup.Issue
import SkinMarkup.Namespace
import SkinMarkup.NamespaceEdit
import SkinMarkup.Path.Basic
import SkinMarkup.Path.Position
import SkinMarkup.Path.Range
import SkinMarkup.Position
import SkinMarkup.Proofs.Attribute.Entries
import SkinMarkup.Proofs.Document.Admissions
import SkinMarkup.Proofs.Document.Appending
import SkinMarkup.Proofs.Document.Attributes
import SkinMarkup.Proofs.Document.Copies
import SkinMarkup.Proofs.Document.Deepest
import SkinMarkup.Proofs.Document.Diagnosis
import SkinMarkup.Proofs.Document.Fragment
import SkinMarkup.Proofs.Document.Lenient
import SkinMarkup.Proofs.Document.Locations
import SkinMarkup.Proofs.Document.Outline
import SkinMarkup.Proofs.Document.Places
import SkinMarkup.Proofs.Document.Reading
import SkinMarkup.Proofs.Document.SelfContained
import SkinMarkup.Proofs.Document.Steps
import SkinMarkup.Proofs.Document.Stored
import SkinMarkup.Proofs.Document.Unfinished
import SkinMarkup.Proofs.Document.Writable
import SkinMarkup.Proofs.Event.Whole
import SkinMarkup.Proofs.Indent.Frame
import SkinMarkup.Proofs.Indent.Lines
import SkinMarkup.Proofs.Indent.Unindented
import SkinMarkup.Proofs.Indent.Whole
import SkinMarkup.Proofs.Markup.Basic
import SkinMarkup.Proofs.Markup.Printing
import SkinMarkup.Proofs.Markup.Reading
import SkinMarkup.Proofs.Markup.Revised
import SkinMarkup.Proofs.Markup.Revision
import SkinMarkup.Proofs.Markup.RootTag
import SkinMarkup.Proofs.Markup.Scanning
import SkinMarkup.Proofs.Markup.Sound
import SkinMarkup.Proofs.Markup.Spots
import SkinMarkup.Proofs.Namespace.Added
import SkinMarkup.Proofs.Namespace.Cleaned
import SkinMarkup.Proofs.Namespace.CleanedMarkup
import SkinMarkup.Proofs.Namespace.Cleaning
import SkinMarkup.Proofs.Namespace.DeclaredRoot
import SkinMarkup.Proofs.Namespace.Gained
import SkinMarkup.Proofs.Namespace.Unscanned
import SkinMarkup.Proofs.Namespace.UnusedTag
import SkinMarkup.Proofs.Path.Counting
import SkinMarkup.Proofs.Path.Following
import SkinMarkup.Proofs.Path.Inverse
import SkinMarkup.Proofs.Path.Landing
import SkinMarkup.Proofs.Path.Lookup
import SkinMarkup.Proofs.Path.Selection
import SkinMarkup.Proofs.Position.LineIndex
import SkinMarkup.Proofs.Scan.Filled
import SkinMarkup.Proofs.Scan.Layout
import SkinMarkup.Proofs.Scan.Lexing
import SkinMarkup.Proofs.Scan.Located
import SkinMarkup.Proofs.Scan.Recut
import SkinMarkup.Proofs.Scan.Respaced
import SkinMarkup.Proofs.Scan.Root
import SkinMarkup.Proofs.Scan.Skipping
import SkinMarkup.Proofs.Scan.Stopped
import SkinMarkup.Proofs.Scan.Tiling
import SkinMarkup.Proofs.State.Actions
import SkinMarkup.Proofs.State.BlankMarkup
import SkinMarkup.Proofs.State.BlankTag
import SkinMarkup.Proofs.State.Blanking
import SkinMarkup.Proofs.State.CopiedMarkup
import SkinMarkup.Proofs.State.CopiedTag
import SkinMarkup.Proofs.State.Copying
import SkinMarkup.Proofs.State.Created
import SkinMarkup.Proofs.State.Declarations
import SkinMarkup.Proofs.State.DeclaredNames
import SkinMarkup.Proofs.State.Declaring
import SkinMarkup.Proofs.State.Documents
import SkinMarkup.Proofs.State.Enrolled
import SkinMarkup.Proofs.State.Framed
import SkinMarkup.Proofs.State.FramedEdits
import SkinMarkup.Proofs.State.Fronted
import SkinMarkup.Proofs.State.LaidEdits
import SkinMarkup.Proofs.State.Lists
import SkinMarkup.Proofs.State.LocatedEdits
import SkinMarkup.Proofs.State.LongerLists
import SkinMarkup.Proofs.State.Placed
import SkinMarkup.Proofs.State.Recreated
import SkinMarkup.Proofs.State.Remainder
import SkinMarkup.Proofs.State.RemovedMarkup
import SkinMarkup.Proofs.State.RemovedTag
import SkinMarkup.Proofs.State.Removing
import SkinMarkup.Proofs.State.RenamedBack
import SkinMarkup.Proofs.State.RenamedMarkup
import SkinMarkup.Proofs.State.RenamedStart
import SkinMarkup.Proofs.State.RenamedTag
import SkinMarkup.Proofs.State.Renaming
import SkinMarkup.Proofs.State.RestoredTag
import SkinMarkup.Proofs.State.Revisions
import SkinMarkup.Proofs.State.Rewriting
import SkinMarkup.Proofs.State.RewritingRuns
import SkinMarkup.Proofs.State.Rewritten
import SkinMarkup.Proofs.State.SettledTag
import SkinMarkup.Proofs.State.ShorterLists
import SkinMarkup.Proofs.State.Sites
import SkinMarkup.Proofs.State.SoundEdits
import SkinMarkup.Proofs.State.SpelledLists
import SkinMarkup.Proofs.State.StartState
import SkinMarkup.Proofs.State.StartedTag
import SkinMarkup.Proofs.State.Starting
import SkinMarkup.Proofs.State.Successors
import SkinMarkup.Proofs.State.Suitable
import SkinMarkup.Proofs.State.Undoing
import SkinMarkup.Proofs.State.WellFormed
import SkinMarkup.Proofs.Tag.Bare
import SkinMarkup.Proofs.Tag.Children
import SkinMarkup.Proofs.Tag.Located
import SkinMarkup.Proofs.Tag.Marks
import SkinMarkup.Proofs.Tag.RoundTrip
import SkinMarkup.Proofs.Tag.Scoped
import SkinMarkup.Proofs.Tag.Trail
import SkinMarkup.Proofs.TagText.Detached
import SkinMarkup.Proofs.TagText.Edits
import SkinMarkup.Proofs.TagText.Extents
import SkinMarkup.Proofs.TagText.Filled
import SkinMarkup.Proofs.TagText.Found
import SkinMarkup.Proofs.TagText.Laid
import SkinMarkup.Proofs.TagText.LaidSlots
import SkinMarkup.Proofs.TagText.Slots
import SkinMarkup.Proofs.TagText.Spans
import SkinMarkup.Proofs.TagText.StartTag
import SkinMarkup.Proofs.TagText.Tidy
import SkinMarkup.Proofs.TagText.Values
import SkinMarkup.Proofs.TagText.Within
import SkinMarkup.Proofs.Text.Bytes
import SkinMarkup.Proofs.Text.Cutting
import SkinMarkup.Proofs.Text.Entities
import SkinMarkup.Proofs.Text.Names
import SkinMarkup.Proofs.Text.Search
import SkinMarkup.Proofs.Text.Template
import SkinMarkup.Proofs.Text.Trim
import SkinMarkup.Proofs.Visibility.Agreement
import SkinMarkup.Proofs.Visibility.SingleState
import SkinMarkup.Scan.Basic
import SkinMarkup.Scan.Cursor
import SkinMarkup.Scan.Token
import SkinMarkup.State.Create
import SkinMarkup.State.Remove
import SkinMarkup.State.Rename
import SkinMarkup.State.Start
import SkinMarkup.State.StateList
import SkinMarkup.Tag.Basic
import SkinMarkup.Tag.Printer
import SkinMarkup.Tag.Query
import SkinMarkup.TagText.Basic
import SkinMarkup.TagText.ValueSlot
import SkinMarkup.Text.Basic
import SkinMarkup.Text.Blank
import SkinMarkup.Text.Search
import SkinMarkup.Visibility
import SkinMarkup.Vocabulary
