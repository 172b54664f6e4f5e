import SkinMarkup.Attribute.Reader
import SkinMarkup.Namespace
import SkinMarkup.Scan.Token

/-!
# Names

The names of the markup grammar, with at most one colon and something on both
sides of it. No character of a name ends it, neither for a scan nor for a
reader (`plain_of_isNameChar`). What follows the colon is a name without one
(`ColonName.localOf_localOf`), whether or not there is anything beside the colon.
-/

namespace SkinMarkup

/-- The code points that may start a name, as closed ranges. -/
def nameStartRanges : List (Nat × Nat) :=
  [(0x3A, 0x3A), (0x41, 0x5A), (0x5F, 0x5F), (0x61, 0x7A), (0xC0, 0xD6), (0xD8, 0xF6),
    (0xF8, 0x2FF), (0x370, 0x37D), (0x37F, 0x1FFF), (0x200C, 0x200D), (0x2070, 0x218F),
    (0x2C00, 0x2FEF), (0x3001, 0xD7FF), (0xF900, 0xFDCF), (0xFDF0, 0xFFFD), (0x10000, 0xEFFFF)]

/-- The further code points of a name, as closed ranges. -/
def nameRanges : List (Nat × Nat) :=
  [(0x2D, 0x2E), (0x30, 0x39), (0xB7, 0xB7), (0x300, 0x36F), (0x203F, 0x2040)]

def isNameStart (c : Char) : Bool :=
  nameStartRanges.any fun (low, high) => decide (low ≤ c.toNat) && decide (c.toNat ≤ high)

def isNameChar (c : Char) : Bool :=
  isNameStart c ||
    nameRanges.any fun (low, high) => decide (low ≤ c.toNat) && decide (c.toNat ≤ high)

/-- A name with at most one colon, which is neither its first nor its last
character. -/
def isName (name : Text) : Bool :=
  name.head?.any isNameStart && name.all isNameChar &&
    match cutAt ':' name with
    | some (before, after) => !before.isEmpty && !after.isEmpty && !after.contains ':'
    | none => true

theorem cutAt_eq_none_iff {sep : Char} {t : Text} : cutAt sep t = none ↔ sep ∉ t := by
  induction t with
  | nil => simp [cutAt]
  | cons c cs ih =>
    by_cases hc : c = sep
    · simp [cutAt, hc]
    · rw [cutAt, if_neg hc, Option.map_eq_none_iff, ih, List.mem_cons, not_or]
      exact ⟨fun h => ⟨Ne.symm hc, h⟩, fun h => h.2⟩

theorem not_mem_of_cutAt {sep : Char} {t before after : Text}
    (h : cutAt sep t = some (before, after)) : sep ∉ before := by
  induction t generalizing before with
  | nil => simp [cutAt] at h
  | cons c cs ih =>
    by_cases hc : c = sep
    · simp only [cutAt, if_pos hc, Option.some.injEq, Prod.mk.injEq] at h
      rw [← h.1]
      exact List.not_mem_nil
    · simp only [cutAt, if_neg hc, Option.map_eq_some_iff, Prod.mk.injEq, Prod.exists] at h
      obtain ⟨s, t, hst, rfl, rfl⟩ := h
      rw [List.mem_cons, not_or]
      exact ⟨Ne.symm hc, ih hst⟩

theorem ne_of_isNameChar {c e : Char} (hc : isNameChar c = true) (he : isNameChar e = false) :
    c ≠ e := by
  rintro rfl
  cases hc.symm.trans he

/-- A character of a name ends no name, closes no tag and opens no quote. -/
theorem plain_of_isNameChar {c : Char} (hc : isNameChar c = true) :
    (isSpace c || c == '/' || c == '>') = false ∧ isMarkupSpace c = false ∧
      c ≠ '>' ∧ c ≠ '"' ∧ c ≠ '\'' := by
  have hne : ∀ e : Char, isNameChar e = false → (c == e) = false := fun e he => by
    simpa using ne_of_isNameChar hc he
  refine ⟨?_, ?_, ne_of_isNameChar hc (by decide), ne_of_isNameChar hc (by decide),
    ne_of_isNameChar hc (by decide)⟩
  · simp [isSpace, hne ' ' (by decide), hne '\t' (by decide), hne '\n' (by decide),
      hne '\r' (by decide), hne '\x0c' (by decide), hne '/' (by decide), hne '>' (by decide)]
  · simp [isMarkupSpace, hne ' ' (by decide), hne '\t' (by decide), hne '\n' (by decide),
      hne '\r' (by decide)]

section

variable {name rest : Text}

/-- The part of a name that is cut off at its colon, with the colon. -/
def qualifier (name : Text) : Text :=
  match prefixOf name with
  | some p => p ++ [':']
  | none => []

theorem qualifier_append (name : Text) : qualifier name ++ localOf name = name := by
  rw [qualifier, prefixOf, localOf]
  cases hcut : cutAt ':' name with
  | none => rfl
  | some parts =>
    simp only [Option.map_some]
    rw [List.append_assoc, List.singleton_append, ← cutAt_eq_some hcut]

/-- A text of name characters, at most one of which is a colon. -/
structure ColonName (name : Text) : Prop where
  chars : ∀ c ∈ name, isNameChar c = true
  colons : name.count ':' ≤ 1

instance (name : Text) : Decidable (ColonName name) :=
  decidable_of_iff (name.all isNameChar = true ∧ name.count ':' ≤ 1)
    ⟨fun h => ⟨List.all_eq_true.mp h.1, h.2⟩, fun h => ⟨List.all_eq_true.mpr h.chars, h.colons⟩⟩

theorem ColonName.of_isName (h : isName name = true) : ColonName name := by
  simp only [isName, Bool.and_eq_true] at h
  obtain ⟨⟨-, hchars⟩, hparts⟩ := h
  refine ⟨List.all_eq_true.mp hchars, ?_⟩
  cases hcut : cutAt ':' name with
  | none =>
    rw [List.count_eq_zero.mpr (cutAt_eq_none_iff.mp hcut)]
    exact Nat.zero_le 1
  | some parts =>
    obtain ⟨before, after⟩ := parts
    simp only [hcut, Bool.and_eq_true, Bool.not_eq_true', List.contains_eq_mem,
      decide_eq_false_iff_not] at hparts
    have hbefore := not_mem_of_cutAt hcut
    have hcount : name.count ':' = 1 := by
      rw [cutAt_eq_some hcut, List.count_append, List.count_cons_self,
        List.count_eq_zero.mpr hbefore, List.count_eq_zero.mpr hparts.2]
    exact Nat.le_of_eq hcount

theorem ColonName.isNameChar_of_mem_qualifier (h : ColonName name) {c : Char}
    (hc : c ∈ qualifier name) : isNameChar c = true := by
  apply h.chars
  rw [← qualifier_append name]
  exact List.mem_append_left _ hc

theorem ColonName.isNameChar_of_mem_localOf (h : ColonName name) {c : Char}
    (hc : c ∈ localOf name) : isNameChar c = true := by
  apply h.chars
  rw [← qualifier_append name]
  exact List.mem_append_right _ hc

/-- The local part of a name has no colon. -/
theorem ColonName.localOf_localOf (h : ColonName name) :
    localOf (localOf name) = localOf name := by
  rw [localOf, localOf]
  cases hcut : cutAt ':' name with
  | none => simp [hcut]
  | some parts =>
    obtain ⟨before, after⟩ := parts
    have hcount := h.colons
    rw [cutAt_eq_some hcut, List.count_append, List.count_cons_self] at hcount
    have hafter : ':' ∉ after := List.count_eq_zero.mp (by omega)
    simp [cutAt_eq_none_iff.mpr hafter]

theorem takeWhile_append_eq_left {p : Char → Bool} (hname : ∀ c ∈ name, p c = true)
    (hrest : ∀ c ∈ rest.head?, p c = false) : (name ++ rest).takeWhile p = name := by
  rw [List.takeWhile_append_of_pos hname]
  cases rest with
  | nil => simp
  | cons c cs => simp [hrest c rfl]

/-- A scan reads a name up to what ends it. -/
theorem takeWhile_name (hname : ∀ c ∈ name, isNameChar c = true)
    (hrest : ∀ c ∈ rest.head?, (isSpace c || c == '/' || c == '>') = true) :
    (name ++ rest).takeWhile (fun c => !(isSpace c || c == '/' || c == '>')) = name := by
  apply takeWhile_append_eq_left
  · intro c hc
    rw [(plain_of_isNameChar (hname c hc)).1]
    rfl
  · intro c hc
    rw [hrest c hc]
    rfl

theorem dropWhile_append_eq_right {p : Char → Bool} (hname : ∀ c ∈ name, p c = true)
    (hrest : ∀ c ∈ rest.head?, p c = false) : (name ++ rest).dropWhile p = rest := by
  rw [List.dropWhile_append_of_pos hname]
  cases rest with
  | nil => rfl
  | cons c cs => exact List.dropWhile_cons_of_neg (by simp [hrest c rfl])

end

end SkinMarkup
