import SkinMarkup.Dialect
import SkinMarkup.Edit.Outcome
import SkinMarkup.Scan.Basic

/-!
# Indentation

A range of a text is indented anew: every tag one level deeper than the
element it stands in. The level at which the range starts is measured at the
innermost element that was opened before it. Text outside the range stays as
it is; a token that reaches into the range from before is indented, and one
that reaches out of it is the last.

Lines inside a token or a gap get the same indentation as the token. Line
breaks are written as line feeds.
-/

namespace SkinMarkup

/-! ## Lines and levels -/

/-- A text with every line break as a line feed. -/
def normalizeBreaks : Text → Text
  | [] => []
  | '\r' :: '\n' :: cs => '\n' :: normalizeBreaks cs
  | c :: cs => (if c = '\r' then '\n' else c) :: normalizeBreaks cs

/-- The lines of a text without their breaks. There is at least one. -/
def linesOf (t : Text) : List Text :=
  partsAt '\n' (normalizeBreaks t)

namespace IndentStyle

/-- The written form of some levels of indentation. -/
def levels (style : IndentStyle) (count : Nat) : Text :=
  (List.replicate count style.unit).flatten

/-- A line at a level. A line without text is not indented. -/
def indentLine (style : IndentStyle) (level : Nat) (line : Text) : Text :=
  if line = [] then [] else style.levels level ++ line

/-- The lines after a first one, each at a level and after a line feed.
`trimLast` also drops the blanks at the end of the last one. -/
def indentLines (style : IndentStyle) (level : Nat) (trimLast : Bool) : List Text → Text
  | [] => []
  | line :: lines =>
    let line := trimStart line
    let line := if trimLast && lines.isEmpty then trimEnd line else line
    '\n' :: style.indentLine level line ++ style.indentLines level trimLast lines

/-- A text with its lines at a level. The first line is left as it is if
`keepFirst` holds. -/
def reindent (style : IndentStyle) (level : Nat) (keepFirst trimLast : Bool) (t : Text) : Text :=
  match linesOf t with
  | [] => []
  | first :: lines =>
    (if keepFirst then first else style.indentLine level (trimStart first)) ++
      style.indentLines level trimLast lines

/-- The level of the blanks that end a text: one for each tab, and one for
each started group of spaces. -/
def levelOf (style : IndentStyle) (t : Text) : Nat :=
  let run := takeEndWhile (fun c => c == '\t' || c == ' ') t
  run.count '\t' + (run.count ' ' + style.spacesPerLevel - 1) / style.spacesPerLevel

/-- The level of the blanks before a byte offset. -/
def levelAt (style : IndentStyle) (offset : Nat) (t : Text) : Nat :=
  style.levelOf (takeWidth offset t)

/-- The blanks that the level before a byte offset would be written with. -/
def levelTextAt (style : IndentStyle) (offset : Nat) (t : Text) : Text :=
  style.levels (style.levelAt offset t)

end IndentStyle

/-! ## Indenting a range -/

/-- How far indenting a range has come. -/
inductive IndentPhase where
  /-- Before the range: the offsets of the elements that are open, innermost
  first. -/
  | before (opened : List Nat)
  /-- In the range, at a level. -/
  | within (level : Nat)

namespace IndentPhase

/-- The level of the next token. When the range is entered, it is one more
than that of the innermost open element. -/
def level (style : IndentStyle) (source : Text) : IndentPhase → Nat
  | before [] => 0
  | before (enclosing :: _) => style.levelAt enclosing source + 1
  | within level => level

/-- The level at which a gap is written: that of the range, or zero before
it. -/
def gapLevel : IndentPhase → Nat
  | before _ => 0
  | within level => level

/-- Takes note of a token before the range. -/
def note (token : Token) : IndentPhase → IndentPhase
  | before opened =>
    match token.kind with
    | .opening => before (token.start :: opened)
    | .closing => before (opened.drop 1)
    | _ => before opened
  | within level => within level

end IndentPhase

/-- A range of bytes to indent in a text. -/
structure IndentTask where
  style : IndentStyle
  source : Text
  start : Nat
  stop : Nat

namespace IndentTask

/-- The gap before a token. -/
def gapText (task : IndentTask) (phase : IndentPhase) (s : Segment) : Text :=
  if task.start ≤ s.token.start then
    task.style.reindent phase.gapLevel true true s.gap
  else
    s.gap

/-- A token in the range, after a gap as it was written, and the phase after
it. An end tag stands one level further out. Only a token at the start of a
line is moved. -/
def tokenText (task : IndentTask) (phase : IndentPhase) (gap : Text) (token : Token) :
    Text × IndentPhase :=
  let inner := phase.level task.style task.source
  let level := if token.kind = .closing then inner - 1 else inner
  let atLineStart := gap.getLast?.any fun c => c == '\n' || c == '\r'
  let text := task.style.reindent level (!atLineStart) false token.text
  (text, .within (if token.kind = .opening then level + 1 else level))

/-- Indents segments. What follows the range is not looked at, so the outcome
is complete even if the scan fails there. -/
def run (task : IndentTask) (s : Scan) (phase : IndentPhase) : List Segment → Outcome
  | [] => ⟨s.tail, s.failure.isNone⟩
  | segment :: rest =>
    let token := segment.token
    let untouched := rest.flatMap Segment.source ++ s.tail
    let gap := task.gapText phase segment
    if task.stop ≤ token.start then
      ⟨gap ++ token.text ++ untouched, true⟩
    else
      let (text, next) :=
        if task.start ≤ token.stop then task.tokenText phase gap token
        else (token.text, phase.note token)
      if task.stop ≤ token.stop then
        ⟨gap ++ text ++ untouched, true⟩
      else
        let others := task.run s next rest
        ⟨gap ++ text ++ others.text, others.complete⟩

end IndentTask

/-- Indents the lines of a text between two byte offsets. -/
def indentRange (style : IndentStyle) (start stop : Nat) (t : Text) : Outcome :=
  let s := scan t
  IndentTask.run ⟨style, t, start, stop⟩ s (.before []) s.segments

end SkinMarkup
