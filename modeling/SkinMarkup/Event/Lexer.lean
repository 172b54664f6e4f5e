import SkinMarkup.Event.Basic

/-!
# Cutting a document into events

`Event.next` cuts one event off a text and `Event.lex` cuts up the whole
text, up to the first piece of markup that cannot be read. Nothing is lost:
`Event.next_source` says that the event and the rest make up the text.

A tag ends at the first `>` outside quotes. A comment, an instruction and a
CDATA section end at the first occurrence of their closing word. A document
type declaration ends where its angle brackets balance.
-/

namespace SkinMarkup.Event

/-! ## The ends of tags and declarations -/

/-- Cuts a text at the first `>` outside quotes. `quote` is the quote that is
open at its start. -/
def cutTag : (quote : Option Char) → Text → Option (Text × Text)
  | _, [] => none
  | none, c :: cs =>
    if c = '>' then
      some ([], cs)
    else
      (cutTag (if c = '"' ∨ c = '\'' then some c else none) cs).map fun (s, t) => (c :: s, t)
  | some q, c :: cs =>
    (cutTag (if c = q then none else some q) cs).map fun (s, t) => (c :: s, t)

/-- Cuts a text at the `>` that closes a declaration in which `depth` inner
angle brackets are open. -/
def cutBalanced : (depth : Nat) → Text → Option (Text × Text)
  | _, [] => none
  | depth, c :: cs =>
    if c = '>' then
      match depth with
      | 0 => some ([], cs)
      | depth + 1 => (cutBalanced depth cs).map fun (s, t) => (c :: s, t)
    else
      (cutBalanced (if c = '<' then depth + 1 else depth) cs).map fun (s, t) => (c :: s, t)

theorem cutTag_eq_some {quote : Option Char} {t before after : Text}
    (h : cutTag quote t = some (before, after)) : t = before ++ '>' :: after := by
  induction t generalizing quote before with
  | nil => simp [cutTag] at h
  | cons c cs ih =>
    cases quote with
    | none =>
      by_cases hc : c = '>'
      · simp only [cutTag, if_pos hc, Option.some.injEq, Prod.mk.injEq] at h
        simp [← h.1, ← h.2, hc]
      · simp only [cutTag, if_neg hc, Option.map_eq_some_iff, Prod.mk.injEq, Prod.exists] at h
        obtain ⟨s, t, hst, rfl, rfl⟩ := h
        simp [ih hst]
    | some q =>
      simp only [cutTag, Option.map_eq_some_iff, Prod.mk.injEq, Prod.exists] at h
      obtain ⟨s, t, hst, rfl, rfl⟩ := h
      simp [ih hst]

theorem cutBalanced_eq_some {depth : Nat} {t before after : Text}
    (h : cutBalanced depth t = some (before, after)) : t = before ++ '>' :: after := by
  induction t generalizing depth before with
  | nil => simp [cutBalanced] at h
  | cons c cs ih =>
    by_cases hc : c = '>'
    · cases depth with
      | zero =>
        simp only [cutBalanced, if_pos hc, Option.some.injEq, Prod.mk.injEq] at h
        simp [← h.1, ← h.2, hc]
      | succ depth =>
        simp only [cutBalanced, if_pos hc, Option.map_eq_some_iff, Prod.mk.injEq, Prod.exists] at h
        obtain ⟨s, t, hst, rfl, rfl⟩ := h
        simp [ih hst]
    · simp only [cutBalanced, if_neg hc, Option.map_eq_some_iff, Prod.mk.injEq, Prod.exists] at h
      obtain ⟨s, t, hst, rfl, rfl⟩ := h
      simp [ih hst]

/-! ## One event -/

/-- The letters that start a document type declaration, in either case. -/
def doctype : Text :=
  ['d', 'o', 'c', 't', 'y', 'p', 'e']

/-- Whether the content of a declaration after its `<!` starts with
`DOCTYPE`. -/
def isDoctype (content : Text) : Bool :=
  (content.take doctype.length).map Char.toLower == doctype

/-- Cuts a document type declaration off a text, given what follows its `<!`.
An unnamed document type is reported at the closing `>`. -/
def nextDoctype (t : Text) : Except (MarkupFault × Nat) (Event × Text) :=
  match cutBalanced 0 t with
  | none => .error (.unclosedDoctype, 0)
  | some (content, rest) =>
    if !isDoctype content then
      .error (.unclosedDoctype, 0)
    else if (content.drop doctype.length).all isMarkupSpace then
      .error (.unnamedDoctype, 2 + width content)
    else
      .ok (.aside ('<' :: '!' :: content ++ ['>']), rest)

/-- Cuts a comment off a text, given what follows its `<!`. -/
def nextComment (t : Text) : Except (MarkupFault × Nat) (Event × Text) :=
  match t with
  | '-' :: '-' :: t =>
    match cutAtWord ['-', '-', '>'] t with
    | some (content, rest) => .ok (.aside (['<', '!', '-', '-'] ++ content ++ ['-', '-', '>']), rest)
    | none => .error (.unclosedComment, 0)
  | _ => .error (.unclosedComment, 0)

/-- Cuts a CDATA section off a text, given what follows its `<!`. -/
def nextCdata (t : Text) : Except (MarkupFault × Nat) (Event × Text) :=
  match after? ['[', 'C', 'D', 'A', 'T', 'A', '['] t with
  | none => .error (.unclosedCdata, 0)
  | some t =>
    match cutAtWord [']', ']', '>'] t with
    | some (content, rest) => .ok (.cdata content, rest)
    | none => .error (.unclosedCdata, 0)

/-- Cuts an instruction off a text, given what follows its `<?`. -/
def nextInstruction (t : Text) : Except (MarkupFault × Nat) (Event × Text) :=
  if t.head? = some '>' then
    .error (.unclosedInstruction, 0)
  else
    match cutAtWord ['?', '>'] t with
    | some (content, rest) => .ok (.aside (['<', '?'] ++ content ++ ['?', '>']), rest)
    | none => .error (.unclosedInstruction, 0)

/-- Cuts an end tag off a text, given what follows its `</`. -/
def nextClosing (t : Text) : Except (MarkupFault × Nat) (Event × Text) :=
  match cutTag none t with
  | some (content, rest) => .ok (.closing content, rest)
  | none => .error (.unclosedTag, 0)

/-- Cuts a start tag off a text, given what follows its `<`. A slash right
before the `>` makes it an empty element. -/
def nextOpening (t : Text) : Except (MarkupFault × Nat) (Event × Text) :=
  match cutTag none t with
  | some (content, rest) =>
    match before? ['/'] content with
    | some content => .ok (.empty content, rest)
    | none => .ok (.opening content, rest)
  | none => .error (.unclosedTag, 0)

/-- Cuts a declaration, comment or CDATA section off a text, given what
follows its `<!`. -/
def nextDeclaration (t : Text) : Except (MarkupFault × Nat) (Event × Text) :=
  match t.head? with
  | some '[' => nextCdata t
  | some '-' => nextComment t
  | some 'D' => nextDoctype t
  | some 'd' => nextDoctype t
  | _ => .error (.unknownMarkup, 0)

/-- Cuts a piece of markup off a text, given what follows its `<`. A fault
comes with its distance from the `<`. -/
def nextMarkup (t : Text) : Except (MarkupFault × Nat) (Event × Text) :=
  match t with
  | '!' :: rest => nextDeclaration rest
  | '/' :: rest => nextClosing rest
  | '?' :: rest => nextInstruction rest
  | t => nextOpening t

/-- Cuts an event off a text that starts with `c`. -/
def next (c : Char) (cs : Text) : Except (MarkupFault × Nat) (Event × Text) :=
  if c = '<' then
    nextMarkup cs
  else
    .ok (.text (c :: cs.takeWhile (· != '<')), cs.dropWhile (· != '<'))

/-! ## Nothing is lost -/

theorem nextDoctype_source {t rest : Text} {e : Event} (h : nextDoctype t = .ok (e, rest)) :
    e.source ++ rest = '<' :: '!' :: t := by
  unfold nextDoctype at h
  split at h
  · cases h
  · next content after hcut =>
    split at h
    · cases h
    · split at h
      · cases h
      · cases h
        simp [source, cutBalanced_eq_some hcut]

theorem nextComment_source {t rest : Text} {e : Event} (h : nextComment t = .ok (e, rest)) :
    e.source ++ rest = '<' :: '!' :: t := by
  unfold nextComment at h
  split at h
  · split at h
    · next content after hcut =>
      cases h
      rw [cutAtWord_eq_some hcut]
      simp [source]
    · cases h
  · cases h

theorem nextCdata_source {t rest : Text} {e : Event} (h : nextCdata t = .ok (e, rest)) :
    e.source ++ rest = '<' :: '!' :: t := by
  unfold nextCdata at h
  split at h
  · cases h
  · next content hafter =>
    split at h
    · next content after hcut =>
      cases h
      rw [after?_eq_some hafter, cutAtWord_eq_some hcut]
      simp [source]
    · cases h

theorem nextInstruction_source {t rest : Text} {e : Event}
    (h : nextInstruction t = .ok (e, rest)) : e.source ++ rest = '<' :: '?' :: t := by
  unfold nextInstruction at h
  split at h
  · cases h
  · split at h
    · next content after hcut =>
      cases h
      rw [cutAtWord_eq_some hcut]
      simp [source]
    · cases h

theorem nextClosing_source {t rest : Text} {e : Event} (h : nextClosing t = .ok (e, rest)) :
    e.source ++ rest = '<' :: '/' :: t := by
  unfold nextClosing at h
  split at h
  · next content after hcut =>
    cases h
    simp [source, cutTag_eq_some hcut]
  · cases h

theorem nextOpening_source {t rest : Text} {e : Event} (h : nextOpening t = .ok (e, rest)) :
    e.source ++ rest = '<' :: t := by
  unfold nextOpening at h
  split at h
  · next content after hcut =>
    split at h
    · next inner hbefore =>
      cases h
      rw [cutTag_eq_some hcut, before?_eq_some hbefore]
      simp [source]
    · cases h
      simp [source, cutTag_eq_some hcut]
  · cases h

theorem nextMarkup_source {t rest : Text} {e : Event} (h : nextMarkup t = .ok (e, rest)) :
    e.source ++ rest = '<' :: t := by
  unfold nextMarkup at h
  split at h
  · next more =>
    unfold nextDeclaration at h
    split at h
    · exact nextCdata_source h
    · exact nextComment_source h
    · exact nextDoctype_source h
    · exact nextDoctype_source h
    · cases h
  · exact nextClosing_source h
  · exact nextInstruction_source h
  · exact nextOpening_source h

/-- An event and what follows it make up the text. -/
theorem next_source {c : Char} {cs rest : Text} {e : Event} (h : next c cs = .ok (e, rest)) :
    e.source ++ rest = c :: cs := by
  unfold next at h
  split at h
  · next hc =>
    rw [hc]
    exact nextMarkup_source h
  · cases h
    simp [source, List.takeWhile_append_dropWhile]

/-- An event is never without text. -/
theorem source_ne_nil_of_next {c : Char} {cs rest : Text} {e : Event}
    (h : next c cs = .ok (e, rest)) : e.source ≠ [] := by
  unfold next nextMarkup nextDeclaration nextCdata nextComment nextDoctype nextClosing
    nextInstruction nextOpening at h
  repeat' split at h
  all_goals cases h
  all_goals simp [source]

theorem length_of_next {c : Char} {cs rest : Text} {e : Event} (h : next c cs = .ok (e, rest)) :
    rest.length < cs.length + 1 := by
  have hlen := congrArg List.length (next_source h)
  have hpos := List.length_pos_iff.2 (source_ne_nil_of_next h)
  rw [List.length_append, List.length_cons] at hlen
  omega

/-! ## The whole text -/

/-- The events of a text up to its first fault, if it has one. The text
starts at byte `offset`, and the fault comes with its own offset. -/
def lexFrom (offset : Nat) (t : Text) : List Event × Option (MarkupFault × Nat) :=
  match t with
  | [] => ([], none)
  | c :: cs =>
    match h : next c cs with
    | .error (fault, distance) => ([], some (fault, offset + distance))
    | .ok (event, rest) =>
      have := length_of_next h
      let (events, fault) := lexFrom (offset + width event.source) rest
      (event :: events, fault)
termination_by t.length

/-- Cuts a whole document into events. -/
def lex (t : Text) : List Event × Option (MarkupFault × Nat) :=
  lexFrom 0 t

end SkinMarkup.Event
