import SkinMarkup.Scan.Token

/-!
# Scanning a text for tokens

A scan divides any text into tokens and the gaps between them, without asking
whether the text is well-formed. It fails at a token that does not end and at
an end tag where nothing is open; what follows the last token before that is
the tail. `source_scan` says that a scan never loses a character.

Inside an element token a `>` between quotes does not end the token. A quote
right after a backslash is no quote.
-/

namespace SkinMarkup

/-- A token with the text between it and the token before. -/
structure Segment where
  gap : Text
  token : Token
deriving DecidableEq

namespace Segment

def source (s : Segment) : Text :=
  s.gap ++ s.token.text

end Segment

/-- The tokens of a text. -/
structure Scan where
  segments : List Segment
  /-- What follows the last token. -/
  tail : Text
  /-- The number of elements that are open at the end. -/
  depth : Nat
  /-- Where the scan failed, if it did. -/
  failure : Option Nat
deriving DecidableEq

namespace Scan

/-- The text that was scanned. -/
def source (s : Scan) : Text :=
  s.segments.flatMap Segment.source ++ s.tail

/-- Whether the whole text was scanned and every element was closed. -/
def isClean (s : Scan) : Bool :=
  s.failure.isNone && s.depth == 0

def tokens (s : Scan) : List Token :=
  s.segments.map (·.token)

/-- The start tags, end tags and empty elements. -/
def elements (s : Scan) : List Token :=
  s.tokens.filter (·.isElement)

/-! ## One token -/

/-- Cuts a text at the first `>` outside quotes. `previous` is the character
before the text and `quote` the quote that is open at its start. -/
def cutElement (previous : Char) : (quote : Option Char) → Text → Option (Text × Text)
  | _, [] => none
  | none, c :: cs =>
    if c = '>' then
      some ([], cs)
    else
      let quote := if (c = '"' ∨ c = '\'') ∧ previous ≠ '\\' then some c else none
      (cutElement c quote cs).map fun (s, t) => (c :: s, t)
  | some q, c :: cs =>
    let quote := if c = q ∧ previous ≠ '\\' then none else some q
    (cutElement c quote cs).map fun (s, t) => (c :: s, t)

/-- Cuts a token off a text at the first occurrence of a closing word, given
the opening word and what follows it. -/
def cutEnclosed (kind : TokenKind) (opener closer t : Text) : Option (TokenKind × Text × Text) :=
  (cutAtWord closer t).map fun (content, rest) => (kind, opener ++ content ++ closer, rest)

/-- Cuts an element token off a text, given what follows its `<`. -/
def cutTagToken (t : Text) : Option (TokenKind × Text × Text) :=
  (cutElement '<' none t).map fun (content, rest) =>
    let text := '<' :: content ++ ['>']
    (TokenKind.ofElement text, text, rest)

/-- Cuts a token off a text, given what follows its `<`: its kind, its text
and the rest. -/
def cutToken (t : Text) : Option (TokenKind × Text × Text) :=
  match after? ['!', '-', '-'] t with
  | some rest => cutEnclosed .comment ['<', '!', '-', '-'] ['-', '-', '>'] rest
  | none =>
    match after? ['!', '[', 'C', 'D', 'A', 'T', 'A', '['] t with
    | some rest =>
      cutEnclosed .cdata ['<', '!', '[', 'C', 'D', 'A', 'T', 'A', '['] [']', ']', '>'] rest
    | none =>
      match after? ['?'] t with
      | some rest => cutEnclosed .instruction ['<', '?'] ['?', '>'] rest
      | none =>
        match after? ['!'] t with
        | some rest => cutEnclosed .declaration ['<', '!'] ['>'] rest
        | none => cutTagToken t

/-! ## What is cut off is a part of the text -/

theorem cutElement_eq_some {previous : Char} {quote : Option Char} {t before after : Text}
    (h : cutElement previous quote t = some (before, after)) : t = before ++ '>' :: after := by
  induction t generalizing previous quote before with
  | nil => simp [cutElement] at h
  | cons c cs ih =>
    cases quote with
    | none =>
      by_cases hc : c = '>'
      · simp only [cutElement, if_pos hc, Option.some.injEq, Prod.mk.injEq] at h
        simp [← h.1, ← h.2, hc]
      · simp only [cutElement, if_neg hc, Option.map_eq_some_iff, Prod.mk.injEq, Prod.exists] at h
        obtain ⟨s, t, hst, rfl, rfl⟩ := h
        simp [ih hst]
    | some q =>
      simp only [cutElement, Option.map_eq_some_iff, Prod.mk.injEq, Prod.exists] at h
      obtain ⟨s, t, hst, rfl, rfl⟩ := h
      simp [ih hst]

theorem cutEnclosed_source {kind kind' : TokenKind} {opener closer t text rest : Text}
    (h : cutEnclosed kind opener closer t = some (kind', text, rest)) :
    text ++ rest = opener ++ t := by
  simp only [cutEnclosed, Option.map_eq_some_iff, Prod.mk.injEq, Prod.exists] at h
  obtain ⟨content, after, hcut, rfl, rfl, rfl⟩ := h
  rw [cutAtWord_eq_some hcut]
  simp

/-- A token and what follows it make up the text. -/
theorem cutToken_source {kind : TokenKind} {t text rest : Text}
    (h : cutToken t = some (kind, text, rest)) : text ++ rest = '<' :: t := by
  unfold cutToken at h
  split at h
  · next heq => rw [cutEnclosed_source h, after?_eq_some heq]; rfl
  · split at h
    · next heq => rw [cutEnclosed_source h, after?_eq_some heq]; rfl
    · split at h
      · next heq => rw [cutEnclosed_source h, after?_eq_some heq]; rfl
      · split at h
        · next heq => rw [cutEnclosed_source h, after?_eq_some heq]; rfl
        · simp only [cutTagToken, Option.map_eq_some_iff, Prod.mk.injEq, Prod.exists] at h
          obtain ⟨content, after, hcut, rfl, rfl, rfl⟩ := h
          simp [cutElement_eq_some hcut]

theorem length_cutEnclosed {kind kind' : TokenKind} {opener closer t text rest : Text}
    (h : cutEnclosed kind opener closer t = some (kind', text, rest)) :
    rest.length ≤ t.length := by
  simp only [cutEnclosed, Option.map_eq_some_iff, Prod.mk.injEq, Prod.exists] at h
  obtain ⟨content, after, hcut, rfl, rfl, rfl⟩ := h
  have := congrArg List.length (cutAtWord_eq_some hcut)
  simp only [List.length_append] at this
  omega

theorem length_cutToken {kind : TokenKind} {t text rest : Text}
    (h : cutToken t = some (kind, text, rest)) : rest.length ≤ t.length := by
  unfold cutToken at h
  split at h
  · next heq =>
    have := congrArg List.length (after?_eq_some heq)
    have := length_cutEnclosed h
    simp only [List.length_append] at *
    omega
  · split at h
    · next heq =>
      have := congrArg List.length (after?_eq_some heq)
      have := length_cutEnclosed h
      simp only [List.length_append] at *
      omega
    · split at h
      · next heq =>
        have := congrArg List.length (after?_eq_some heq)
        have := length_cutEnclosed h
        simp only [List.length_append] at *
        omega
      · split at h
        · next heq =>
          have := congrArg List.length (after?_eq_some heq)
          have := length_cutEnclosed h
          simp only [List.length_append] at *
          omega
        · simp only [cutTagToken, Option.map_eq_some_iff, Prod.mk.injEq, Prod.exists] at h
          obtain ⟨content, after, hcut, rfl, rfl, rfl⟩ := h
          have := congrArg List.length (cutElement_eq_some hcut)
          simp only [List.length_append, List.length_cons] at this
          omega

/-! ## The whole text -/

/-- Scans a text that starts at byte `offset` inside `depth` elements. -/
def scanFrom (offset depth : Nat) (t : Text) : Scan :=
  match hrest : t.dropWhile (· != '<') with
  | [] => ⟨[], t, depth, none⟩
  | _ :: cs =>
    let gap := t.takeWhile (· != '<')
    let start := offset + width gap
    match hcut : cutToken cs with
    | none => ⟨[], t, depth, some start⟩
    | some (kind, text, rest) =>
      match kind.depthAfter depth with
      | none => ⟨[], t, depth, some start⟩
      | some depth =>
        have : rest.length < t.length := by
          have hle := length_dropWhile_le (· != '<') t
          have hlt := length_cutToken hcut
          rw [hrest, List.length_cons] at hle
          omega
        let others := scanFrom (start + width text) depth rest
        { others with segments := ⟨gap, ⟨kind, start, text⟩⟩ :: others.segments }
termination_by t.length

/-! ## Elements -/

/-- Divides the segments after a start tag at the end tag that matches it,
which ends the first part. `depth` counts the elements opened since. There is
no such end tag if the element is never closed. -/
def splitElement : (depth : Nat) → List Segment → Option (List Segment × List Segment)
  | _, [] => none
  | depth, s :: rest =>
    match s.token.kind, depth with
    | .closing, 0 => some ([s], rest)
    | .closing, depth + 1 => (splitElement depth rest).map fun (a, b) => (s :: a, b)
    | .opening, depth => (splitElement (depth + 1) rest).map fun (a, b) => (s :: a, b)
    | _, depth => (splitElement depth rest).map fun (a, b) => (s :: a, b)

theorem splitElement_eq_some {depth : Nat} {segments inside after : List Segment}
    (h : splitElement depth segments = some (inside, after)) : segments = inside ++ after := by
  induction segments generalizing depth inside with
  | nil => simp [splitElement] at h
  | cons s rest ih =>
    unfold splitElement at h
    split at h
    · simp only [Option.some.injEq, Prod.mk.injEq] at h
      simp [← h.1, ← h.2]
    all_goals
      simp only [Option.map_eq_some_iff, Prod.mk.injEq, Prod.exists] at h
      obtain ⟨a, b, hab, rfl, rfl⟩ := h
      simp [ih hab]

end Scan

/-- The tokens of a text and the gaps between them. -/
def scan (t : Text) : Scan :=
  Scan.scanFrom 0 0 t

namespace Scan

theorem source_scanFrom (offset depth : Nat) (t : Text) : (scanFrom offset depth t).source = t := by
  fun_induction scanFrom offset depth t with
  | case1 => simp [source]
  | case2 => simp [source]
  | case3 => simp [source]
  | case4 offset depth t c cs hrest gap start kind text rest hcut depth' hdepth _ others ih =>
    have hc : c = '<' := by
      have := List.head?_dropWhile_not (· != '<') t
      rw [hrest] at this
      simpa using this
    simp only [source, List.flatMap_cons, Segment.source, List.append_assoc] at ih ⊢
    rw [ih, cutToken_source hcut, ← hc, ← hrest]
    exact List.takeWhile_append_dropWhile

end Scan

/-- A scan loses nothing. -/
theorem source_scan (t : Text) : (scan t).source = t :=
  Scan.source_scanFrom 0 0 t

end SkinMarkup
