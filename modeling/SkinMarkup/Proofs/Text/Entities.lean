import SkinMarkup.Entity
import SkinMarkup.Proofs.Text.Trim

/-!
# Reading entity references back

What can be read, and as what, does not depend on where it stands: `Unescapes` is
the grammar of references, and `unescape_eq_ok_iff` that a text is read by it. What
has been escaped is read back as it was: `unescape_escape`. References do not reach
across the ends of texts, so a text is read part by part (`unescape_append`).
-/

namespace SkinMarkup

variable {total offset : Nat} {s t a b x y name : Text} {c d : Char} {pending : Option Text}

/-! ## What can be read -/

/-- A reference with the given name stands for a character. Where it starts matters
for the fault of an unknown name alone. -/
def Designates (name : Text) (c : Char) : Prop :=
  ∃ start, PendingReference.resolve ⟨start, name⟩ = .ok c

theorem PendingReference.resolve_eq_ok_iff {r : PendingReference} :
    r.resolve = .ok c ↔ Designates r.name c := by
  refine ⟨fun h => ⟨r.start, h⟩, fun ⟨start, h⟩ => ?_⟩
  unfold resolve at h ⊢
  dsimp only at h
  split at h
  · exact h
  · split at h
    · exact h
    · cases h

/-- A text and what is read from it, if a reference with the name `pending` is open
before it, or none. -/
inductive Unescapes : (pending : Option Text) → Text → Text → Prop where
  | nil : Unescapes none [] []
  | opening {s a : Text} (h : Unescapes (some []) s a) : Unescapes none ('&' :: s) a
  | char {s a : Text} {c : Char} (hc : c ≠ '&') (h : Unescapes none s a) :
    Unescapes none (c :: s) (c :: a)
  | closing {s a name : Text} {d : Char} (hname : Designates name d) (h : Unescapes none s a) :
    Unescapes (some name) (';' :: s) (d :: a)
  | within {s a name : Text} {c : Char} (hend : c ≠ ';') (hc : c ≠ '&')
    (h : Unescapes (some (name ++ [c])) s a) : Unescapes (some name) (c :: s) a

theorem unescapes_of_unescapeFrom {p : Option PendingReference}
    (h : unescapeFrom total offset p s = .ok a) : Unescapes (p.map PendingReference.name) s a := by
  induction s generalizing offset p a with
  | nil =>
    cases p with
    | none =>
      cases h
      exact .nil
    | some r => cases h
  | cons c cs ih =>
    cases p with
    | none =>
      rw [unescapeFrom] at h
      split at h
      · next hc =>
        subst hc
        exact .opening (ih h)
      · next hc =>
        cases hrest : unescapeFrom total (offset + c.utf8Size) none cs with
        | error fault => simp [hrest, bind, Except.bind] at h
        | ok rest =>
          rw [hrest] at h
          cases h
          exact .char hc (ih hrest)
    | some r =>
      rw [unescapeFrom] at h
      split at h
      · next hc =>
        subst hc
        cases hresolve : r.resolve with
        | error fault => simp [hresolve, bind, Except.bind] at h
        | ok d =>
          cases hrest : unescapeFrom total (offset + 1) none cs with
          | error fault => simp [hresolve, hrest, bind, Except.bind] at h
          | ok rest =>
            rw [hresolve, hrest] at h
            cases h
            exact .closing (PendingReference.resolve_eq_ok_iff.mp hresolve) (ih hrest)
      · next hend =>
        split at h
        · cases h
        · next hc => exact .within hend hc (ih h)

theorem Unescapes.unescapeFrom_eq (h : Unescapes pending s a) (total offset : Nat)
    {p : Option PendingReference} (hp : p.map PendingReference.name = pending) :
    unescapeFrom total offset p s = .ok a := by
  induction h generalizing offset p with
  | nil =>
    obtain rfl : p = none := Option.map_eq_none_iff.mp hp
    rfl
  | opening _ ih =>
    obtain rfl : p = none := Option.map_eq_none_iff.mp hp
    rw [unescapeFrom, if_pos rfl]
    exact ih (offset + 1) rfl
  | char hc _ ih =>
    obtain rfl : p = none := Option.map_eq_none_iff.mp hp
    rw [unescapeFrom, if_neg hc, ih _ rfl]
    rfl
  | closing hname _ ih =>
    obtain ⟨r, rfl, rfl⟩ := Option.map_eq_some_iff.mp hp
    rw [unescapeFrom, if_pos rfl, PendingReference.resolve_eq_ok_iff.mpr hname, ih _ rfl]
    rfl
  | within hend hc _ ih =>
    obtain ⟨r, rfl, rfl⟩ := Option.map_eq_some_iff.mp hp
    rw [unescapeFrom, if_neg hend, if_neg hc]
    exact ih _ rfl

/-- **A text is read by the grammar of references.** -/
theorem unescape_eq_ok_iff : unescape s = .ok a ↔ Unescapes none s a :=
  ⟨unescapes_of_unescapeFrom, fun h => h.unescapeFrom_eq _ _ rfl⟩

/-! ## Parts of a text -/

namespace Unescapes

/-- **A text that can be read is read the same way in front of another one.** -/
theorem append (hs : Unescapes pending s a) (ht : Unescapes none t b) :
    Unescapes pending (s ++ t) (a ++ b) := by
  induction hs with
  | nil => exact ht
  | opening _ ih => exact .opening ih
  | char hc _ ih => exact .char hc ih
  | closing hname _ ih => exact .closing hname ih
  | within hend hc _ ih => exact .within hend hc ih

theorem of_not_mem (h : '&' ∉ t) : Unescapes none t t := by
  induction t with
  | nil => exact .nil
  | cons c cs ih =>
    exact .char (fun e => h (e ▸ List.mem_cons_self)) (ih fun hmem => h (List.mem_cons_of_mem c hmem))

/-- An open reference has to be closed. -/
theorem mem_of_pending (h : Unescapes (some name) t a) : ';' ∈ t := by
  induction t generalizing name a with
  | nil => cases h
  | cons c cs ih =>
    cases h with
    | closing hname h => exact List.mem_cons_self
    | within hend hc h => exact List.mem_cons_of_mem c (ih h)

/-- **A text that can be read in front of another one** can be read alone, as can the
other one, unless a reference is open at its end. -/
theorem split (h : Unescapes pending (s ++ x) y) :
    (∃ a b, Unescapes pending s a ∧ Unescapes none x b) ∨
      ∃ name b, Unescapes (some name) x b ∧ (∀ c ∈ s.getLast?, c = '&' ∨ c ∈ name) ∧
        (s = [] → pending = some name) := by
  have hlast : ∀ {c : Char} {cs name : Text}, (∀ d ∈ cs.getLast?, d = '&' ∨ d ∈ name) →
      (cs = [] → c = '&' ∨ c ∈ name) → ∀ d ∈ (c :: cs).getLast?, d = '&' ∨ d ∈ name := by
    intro c cs name hcs hc d hd
    cases cs with
    | nil =>
      cases hd
      exact hc rfl
    | cons e es => exact hcs d (by simpa [List.getLast?_cons_cons] using hd)
  induction s generalizing pending y with
  | nil =>
    cases pending with
    | none => exact Or.inl ⟨[], y, .nil, h⟩
    | some name => exact Or.inr ⟨name, y, h, nofun, fun _ => rfl⟩
  | cons c cs ih =>
    rw [List.cons_append] at h
    cases h with
    | opening h =>
      rcases ih h with ⟨a, b, ha, hb⟩ | ⟨name, b, hb, hcs, hnil⟩
      · exact Or.inl ⟨a, b, .opening ha, hb⟩
      · exact Or.inr ⟨name, b, hb, hlast hcs fun _ => Or.inl rfl, nofun⟩
    | char hc h =>
      rcases ih h with ⟨a, b, ha, hb⟩ | ⟨name, b, hb, hcs, hnil⟩
      · exact Or.inl ⟨_, b, .char hc ha, hb⟩
      · exact Or.inr ⟨name, b, hb, hlast hcs fun hcs => (nomatch hnil hcs), nofun⟩
    | closing hname h =>
      rcases ih h with ⟨a, b, ha, hb⟩ | ⟨name, b, hb, hcs, hnil⟩
      · exact Or.inl ⟨_, b, .closing hname ha, hb⟩
      · exact Or.inr ⟨name, b, hb, hlast hcs fun hcs => (nomatch hnil hcs), nofun⟩
    | within hend hc h =>
      rcases ih h with ⟨a, b, ha, hb⟩ | ⟨name, b, hb, hcs, hnil⟩
      · exact Or.inl ⟨a, b, .within hend hc ha, hb⟩
      · refine Or.inr ⟨name, b, hb, hlast hcs fun hcs => ?_, nofun⟩
        cases hnil hcs
        exact Or.inr (by simp)

end Unescapes

theorem unescape_append (hs : unescape s = .ok a) (ht : unescape t = .ok b) :
    unescape (s ++ t) = .ok (a ++ b) :=
  unescape_eq_ok_iff.mpr ((unescape_eq_ok_iff.mp hs).append (unescape_eq_ok_iff.mp ht))

theorem unescape_of_not_mem (h : '&' ∉ t) : unescape t = .ok t :=
  unescape_eq_ok_iff.mpr (.of_not_mem h)

theorem Blanks.unescape_eq (h : Blanks t) : unescape t = .ok t := by
  apply unescape_of_not_mem
  intro hmem
  cases h '&' hmem

/-- What stands before blanks can be read alone. -/
theorem exists_unescape_of_append (ht : Blanks t) (h : unescape (s ++ t) = .ok x) :
    ∃ a, unescape s = .ok a := by
  rcases (unescape_eq_ok_iff.mp h).split with ⟨a, -, ha, -⟩ | ⟨name, b, hb, -⟩
  · exact ⟨a, unescape_eq_ok_iff.mpr ha⟩
  · -- A reference that is open before blanks is never closed by them.
    cases ht ';' hb.mem_of_pending

/-! ## Escaped texts -/

theorem escape_cons (c : Char) (t : Text) : escape (c :: t) = escapeChar c ++ escape t :=
  List.flatMap_cons

/-- A character is written by one of five references or as it is. -/
theorem escapeChar_cases (c : Char) :
    (isBlank c = false ∧ unescape (escapeChar c) = .ok [c] ∧
      ∃ name ∈ entityNames.map Prod.snd, escapeChar c = '&' :: name ++ [';']) ∨
    (escapeChar c = [c] ∧ c ≠ '<' ∧ c ≠ '>' ∧ c ≠ '&' ∧ c ≠ '\'' ∧ c ≠ '"') := by
  by_cases h : c ∈ entityNames.map Prod.fst
  · left
    simp only [entityNames, List.map_cons, List.map_nil, List.mem_cons, List.not_mem_nil,
      or_false] at h
    rcases h with rfl | rfl | rfl | rfl | rfl <;> exact ⟨rfl, rfl, _, by decide, rfl⟩
  · right
    simp only [entityNames, List.map_cons, List.map_nil, List.mem_cons, List.not_mem_nil,
      or_false, not_or] at h
    obtain ⟨h₁, h₂, h₃, h₄, h₅⟩ := h
    have hlookup : entityNames.lookup c = none := by
      simp [entityNames, List.lookup_cons, beq_false_of_ne, h₁, h₂, h₃, h₄, h₅]
    exact ⟨by rw [escapeChar, hlookup], h₁, h₂, h₃, h₄, h₅⟩

theorem unescape_escapeChar (c : Char) : unescape (escapeChar c) = .ok [c] := by
  rcases escapeChar_cases c with ⟨-, h, -⟩ | ⟨h, -, -, hamp, -⟩
  · exact h
  · rw [h]
    exact unescape_of_not_mem (by simpa using hamp.symm)

/-- **An escaped text is read back as it was.** -/
theorem unescape_escape (t : Text) : unescape (escape t) = .ok t := by
  induction t with
  | nil => rfl
  | cons c cs ih =>
    rw [escape_cons]
    exact unescape_append (unescape_escapeChar c) ih

theorem plain_of_mem_escapeChar {c d : Char} (h : d ∈ escapeChar c) :
    d ≠ '<' ∧ d ≠ '>' ∧ d ≠ '\'' ∧ d ≠ '"' := by
  rcases escapeChar_cases c with ⟨-, -, name, hname, heq⟩ | ⟨heq, h₁, h₂, -, h₄, h₅⟩
  · have hnames : (entityNames.map (·.2)).all (fun name => ('&' :: name ++ [';']).all fun d =>
        decide (d ≠ '<' ∧ d ≠ '>' ∧ d ≠ '\'' ∧ d ≠ '"')) = true := by decide
    rw [heq] at h
    exact of_decide_eq_true (List.all_eq_true.mp (List.all_eq_true.mp hnames name hname) d h)
  · rw [heq, List.mem_singleton] at h
    exact h ▸ ⟨h₁, h₂, h₄, h₅⟩

/-- An escaped text opens no markup and closes no value. -/
theorem plain_of_mem_escape {c : Char} (h : c ∈ escape t) :
    c ≠ '<' ∧ c ≠ '>' ∧ c ≠ '\'' ∧ c ≠ '"' := by
  obtain ⟨d, -, hd⟩ := List.mem_flatMap.mp h
  exact plain_of_mem_escapeChar hd

/-- Each character is written with something at either end that is blank exactly
if the character is. -/
theorem ends_escapeChar (c : Char) :
    (∃ d ds, escapeChar c = d :: ds ∧ isBlank d = isBlank c) ∧
      ∃ d ds, escapeChar c = ds ++ [d] ∧ isBlank d = isBlank c := by
  rcases escapeChar_cases c with ⟨hblank, -, name, -, heq⟩ | ⟨heq, -⟩
  · exact ⟨⟨'&', name ++ [';'], heq, hblank.symm⟩, ⟨';', '&' :: name, heq, hblank.symm⟩⟩
  · exact ⟨⟨c, [], heq, rfl⟩, ⟨c, [], heq, rfl⟩⟩

theorem escape_ne_nil (h : t ≠ []) : escape t ≠ [] := by
  obtain ⟨c, cs, rfl⟩ := List.exists_cons_of_ne_nil h
  obtain ⟨⟨d, ds, heq, -⟩, -⟩ := ends_escapeChar c
  rw [escape_cons, heq]
  simp

theorem Unescapes.exists_of_plain (hs : '&' ∉ s) (h : Unescapes none (s ++ t) a) :
    ∃ b, Unescapes none t b := by
  induction s generalizing a with
  | nil => exact ⟨a, h⟩
  | cons c cs ih =>
    rw [List.mem_cons, not_or] at hs
    cases h with
    | opening h => exact absurd rfl hs.1
    | char hc h => exact ih hs.2 h

/-! ## References do not reach over quotes and commas -/

/-- A character that no reference has in it. -/
def Foreign (c : Char) : Prop :=
  c = '"' ∨ c = '\'' ∨ c = ','

theorem foreign_of_quote (h : c = '"' ∨ c = '\'') : Foreign c :=
  h.imp_right Or.inl

theorem foreign_comma : Foreign ',' :=
  Or.inr (Or.inr rfl)

theorem exists_of_digitValue? {base value code : Nat} (h : numberFrom base value t = .ok code) :
    ∀ c ∈ t, ∃ digit, digitValue? base c = some digit := by
  induction t generalizing value with
  | nil => exact nofun
  | cons d ds ih =>
    rw [numberFrom] at h
    split at h
    · cases h
    · next digit hdigit =>
      split at h
      · rintro c (_ | ⟨_, hc⟩)
        · exact ⟨digit, hdigit⟩
        · exact ih h c hc
      · cases h

theorem Foreign.digitValue?_eq (hc : Foreign c) (base : Nat) : digitValue? base c = none := by
  rcases hc with rfl | rfl | rfl <;> simp [digitValue?]

theorem Foreign.not_mem_of_number (hc : Foreign c) {base code : Nat} (h : number base t = .ok code) :
    c ∉ t := by
  intro hmem
  unfold number at h
  split at h
  · cases h
  · split at h
    · cases h
    · obtain ⟨digit, hdigit⟩ := exists_of_digitValue? h c hmem
      rw [hc.digitValue?_eq] at hdigit
      cases hdigit

/-- A reference with a foreign character in its name stands for nothing. -/
theorem Foreign.not_mem_of_resolve (hc : Foreign c) {r : PendingReference} (h : r.resolve = .ok d) :
    c ∉ r.name := by
  have hbase : ∀ {base : Nat} {digits : Text} {d : Char},
      (number base digits >>= charOfCode) = .ok d → c ∉ digits := by
    intro base digits d hok
    cases hnumber : number base digits with
    | error fault => simp [hnumber, bind, Except.bind] at hok
    | ok code => exact hc.not_mem_of_number hnumber
  have hsign : c ≠ '#' ∧ c ≠ 'x' := by rcases hc with rfl | rfl | rfl <;> simp
  unfold PendingReference.resolve at h
  split at h
  · next digits hname =>
    rw [hname]
    cases hnumeric : numericReference digits with
    | error fault =>
      rw [hnumeric] at h
      cases h
    | ok d =>
      unfold numericReference at hnumeric
      split at hnumeric
      · simp [hsign, hbase hnumeric]
      · simp [hsign, hbase hnumeric]
  · split at h
    · next entry hfind =>
      have hnames : entityNames.all (fun entry =>
          ['"', '\'', ','].all fun c => !entry.2.contains c) = true := by decide
      have hmem := List.all_eq_true.mp hnames _ (List.mem_of_find?_eq_some hfind)
      have heq := List.find?_some hfind
      simp only [decide_eq_true_eq] at heq
      rw [heq, List.all_eq_true] at hmem
      have hforeign : c ∈ ['"', '\'', ','] := by simpa [Foreign] using hc
      simpa using hmem c hforeign
    · cases h

/-- Nothing can be read in a reference with a foreign character in its name. -/
theorem Unescapes.not_mem_pending (hd : Foreign d) (h : Unescapes (some name) t a) : d ∉ name := by
  induction t generalizing name a with
  | nil => cases h
  | cons c cs ih =>
    cases h with
    | closing hname h =>
      obtain ⟨start, hresolve⟩ := hname
      exact hd.not_mem_of_resolve hresolve
    | within hend hc h => exact fun hmem => ih h (List.mem_append_left _ hmem)

/-- **A text with a foreign character in it is read part by part.** -/
theorem exists_of_unescape_around (hc : Foreign c) (h : unescape (s ++ c :: t) = .ok x) :
    ∃ a b, unescape s = .ok a ∧ unescape t = .ok b ∧ x = a ++ c :: b := by
  have hsigns : c ≠ '&' ∧ c ≠ ';' := by rcases hc with rfl | rfl | rfl <;> simp
  rcases (unescape_eq_ok_iff.mp h).split with ⟨a, y, hs, hy⟩ | ⟨name, y, hy, -⟩
  · have hs := unescape_eq_ok_iff.mpr hs
    rw [unescape_append hs (unescape_eq_ok_iff.mpr hy)] at h
    cases h
    cases hy with
    | opening hy => exact absurd rfl hsigns.1
    | char _ ht => exact ⟨a, _, hs, unescape_eq_ok_iff.mpr ht, rfl⟩
  · -- No reference is open before a foreign character.
    cases hy with
    | closing _ ht => exact absurd rfl hsigns.2
    | within _ _ ht => exact absurd (by simp) (ht.not_mem_pending hc)

/-! ## Texts that can be read -/

/-- A text in which every reference stands for a character. -/
def Unescapable (t : Text) : Prop :=
  ∃ a, unescape t = .ok a

theorem unescapable_of_not_mem (h : '&' ∉ t) : Unescapable t :=
  ⟨t, unescape_of_not_mem h⟩

theorem Unescapable.append (hs : Unescapable s) (ht : Unescapable t) : Unescapable (s ++ t) := by
  obtain ⟨⟨a, hs⟩, b, ht⟩ := hs, ht
  exact ⟨a ++ b, unescape_append hs ht⟩

theorem unescapable_around_iff (hc : Foreign c) :
    Unescapable (s ++ c :: t) ↔ Unescapable s ∧ Unescapable t := by
  constructor
  · rintro ⟨x, h⟩
    obtain ⟨a, b, hs, ht, -⟩ := exists_of_unescape_around hc h
    exact ⟨⟨a, hs⟩, b, ht⟩
  · rintro ⟨hs, ht⟩
    have hsign : '&' ∉ [c] := by rcases hc with rfl | rfl | rfl <;> simp
    exact hs.append ((unescapable_of_not_mem hsign).append ht)

/-- Blanks at the ends of a text do not matter. -/
theorem Unescapable.of_blanks_around (hs : Blanks s) (ht : Blanks t) (h : Unescapable (s ++ x ++ t)) :
    Unescapable x := by
  obtain ⟨y, h⟩ := h
  obtain ⟨z, h⟩ := exists_unescape_of_append ht h
  have hplain : '&' ∉ s := fun hmem => by cases hs '&' hmem
  obtain ⟨b, hb⟩ := (unescape_eq_ok_iff.mp h).exists_of_plain hplain
  exact ⟨b, unescape_eq_ok_iff.mpr hb⟩

theorem Unescapable.trim (h : Unescapable t) : Unescapable (trim t) := by
  obtain ⟨l, r, heq, hl, hr, -⟩ := exists_eq_trim t
  exact Unescapable.of_blanks_around hl hr (heq ▸ h)

/-- What stands between quotes within a text can be read alone, and the text with
something else there. -/
theorem Unescapable.replace {new : Text} (h : Unescapable (s ++ x ++ t))
    (hlast : ∀ c ∈ s.getLast?, c = '"' ∨ c = '\'') (hfirst : ∀ c ∈ t.head?, c = '"' ∨ c = '\'')
    (hnew : Unescapable x → Unescapable new) : Unescapable (s ++ new ++ t) := by
  have hbehind : Unescapable (x ++ t) → Unescapable (new ++ t) := by
    cases t with
    | nil => simpa using hnew
    | cons q t =>
      have hq := foreign_of_quote (hfirst q rfl)
      rw [unescapable_around_iff hq, unescapable_around_iff hq]
      exact And.imp_left hnew
  rw [List.append_assoc] at h ⊢
  rcases List.eq_nil_or_concat' s with rfl | ⟨front, q, rfl⟩
  · exact hbehind h
  · have hq := foreign_of_quote (hlast q (by simp))
    rw [List.append_assoc, List.singleton_append, unescapable_around_iff hq] at h ⊢
    exact h.imp_right hbehind

end SkinMarkup
