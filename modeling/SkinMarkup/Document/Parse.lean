import SkinMarkup.Document.Builder

/-!
# Reading documents

`parse` reads a text with options, `parseStrict` with the usual ones.
-/

namespace SkinMarkup

/-- The document of a text. A strict reading fails with the first issue. -/
def parse (options : ParseOptions) (t : Text) : Except ParseFailure Document := do
  let document ← (Source.ofText t).read
  let issues :=
    if options.places then document.issues else document.issues.map Issue.withoutPlace
  match options.strict, issues with
  | true, issue :: _ => .error (.issue issue)
  | _, _ => .ok { document with issues }

/-- The tree of a text without issues. -/
def parseStrict (t : Text) : Except ParseFailure Tag :=
  (parse ParseOptions.standard t).map (·.root)

end SkinMarkup
