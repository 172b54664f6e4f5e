import SkinMarkup.Text.Basic

/-!
# Cutting texts at a character or a word

Each function cuts a text at an occurrence and returns the parts around it;
the `_eq_some` lemmas say that the parts, put together again, are the text.
-/

namespace SkinMarkup

/-- Cuts a text at the first occurrence of a character, which belongs to
neither part. -/
def cutAt (sep : Char) : Text → Option (Text × Text)
  | [] => none
  | c :: cs => if c = sep then some ([], cs) else (cutAt sep cs).map fun (s, t) => (c :: s, t)

theorem cutAt_eq_some {sep : Char} {t before after : Text} (h : cutAt sep t = some (before, after)) :
    t = before ++ sep :: after := by
  induction t generalizing before with
  | nil => simp [cutAt] at h
  | cons c cs ih =>
    by_cases hc : c = sep
    · simp [cutAt, hc] at h
      simp [← h.1, ← h.2, hc]
    · simp only [cutAt, if_neg hc, Option.map_eq_some_iff, Prod.mk.injEq, Prod.exists] at h
      obtain ⟨s, t, hst, rfl, rfl⟩ := h
      simp [ih hst]

/-- Cuts a text at the last occurrence of a character, which belongs to
neither part. -/
def cutAtLast (sep : Char) (t : Text) : Option (Text × Text) :=
  (cutAt sep t.reverse).map fun (s, t) => (t.reverse, s.reverse)

/-- What follows a word at the start of a text, if the text starts with it. -/
def after? : (word : Text) → Text → Option Text
  | [], t => some t
  | _ :: _, [] => none
  | w :: ws, c :: cs => if w = c then after? ws cs else none

theorem after?_eq_some {word t rest : Text} (h : after? word t = some rest) : t = word ++ rest := by
  induction word generalizing t with
  | nil => simpa [after?] using h
  | cons w ws ih =>
    cases t with
    | nil => simp [after?] at h
    | cons c cs =>
      by_cases hc : w = c
      · simp only [after?, if_pos hc] at h
        simp [ih h, hc]
      · simp [after?, hc] at h

/-- Whether a text starts with a word. -/
def startsWith (word t : Text) : Bool :=
  (after? word t).isSome

/-- What stands before a word at the end of a text, if the text ends with it. -/
def before? (word t : Text) : Option Text :=
  (after? word.reverse t.reverse).map List.reverse

theorem before?_eq_some {word t rest : Text} (h : before? word t = some rest) :
    t = rest ++ word := by
  unfold before? at h
  simp only [Option.map_eq_some_iff] at h
  obtain ⟨r, hr, rfl⟩ := h
  have := congrArg List.reverse (after?_eq_some hr)
  simpa using this

/-- Whether a text ends with a word. -/
def endsWith (word t : Text) : Bool :=
  (before? word t).isSome

/-- Cuts a text at the first occurrence of a word, which belongs to neither
part. -/
def cutAtWord (word : Text) : Text → Option (Text × Text)
  | [] => (after? word []).map fun rest => ([], rest)
  | c :: cs =>
    match after? word (c :: cs) with
    | some rest => some ([], rest)
    | none => (cutAtWord word cs).map fun (s, t) => (c :: s, t)

theorem cutAtWord_eq_some {word t before after : Text}
    (h : cutAtWord word t = some (before, after)) : t = before ++ (word ++ after) := by
  induction t generalizing before with
  | nil =>
    simp only [cutAtWord, Option.map_eq_some_iff, Prod.mk.injEq] at h
    obtain ⟨rest, hrest, rfl, rfl⟩ := h
    simpa using after?_eq_some hrest
  | cons c cs ih =>
    simp only [cutAtWord] at h
    split at h
    · next rest hrest =>
      simp only [Option.some.injEq, Prod.mk.injEq] at h
      obtain ⟨rfl, rfl⟩ := h
      simpa using after?_eq_some hrest
    · simp only [Option.map_eq_some_iff, Prod.mk.injEq, Prod.exists] at h
      obtain ⟨s, t, hst, rfl, rfl⟩ := h
      simp [ih hst]

/-- Whether a word occurs in a text. -/
def containsWord (word t : Text) : Bool :=
  (cutAtWord word t).isSome

/-- The parts of a text between the occurrences of a character. A text
without the character is its only part. -/
def partsAt (sep : Char) : Text → List Text
  | [] => [[]]
  | c :: cs =>
    if c = sep then
      [] :: partsAt sep cs
    else
      match partsAt sep cs with
      | [] => [[c]]
      | part :: parts => (c :: part) :: parts

/-- Puts a character between the members of a list of texts. -/
def joinWith (sep : Char) (parts : List Text) : Text :=
  List.intercalate [sep] parts

end SkinMarkup
