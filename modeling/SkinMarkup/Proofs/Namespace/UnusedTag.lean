import SkinMarkup.NamespaceEdit
import SkinMarkup.Proofs.State.Framed
import SkinMarkup.Proofs.Tag.Scoped

/-!
# Start tags without unused prefixes

A declaration is unused if no element has its prefix. Whether an attribute is one is
said by its name alone (`Namespace.isUnused`). Dropping the unused declarations from
the text of a tag that is laid out drops them from its attributes
(`Laid.dropUnused_text`). The tag stays laid out, so that there is nothing more to
drop.
-/

namespace SkinMarkup

/-! ## Names of unused declarations -/

namespace Namespace

/-- Whether an attribute of this name declares a prefix that is not among those
used. -/
def isUnused (used : List Text) (name : Text) : Bool :=
  (after? marker name).any fun p => p ≠ [] && !used.contains p

variable {used used' : List Text} {name p : Text}

theorem isUnused_eq_true_iff :
    isUnused used name = true ↔ ∃ p, p ≠ [] ∧ p ∉ used ∧ name = marker ++ p := by
  rw [isUnused, Option.any_eq_true]
  constructor
  · rintro ⟨p, hafter, hp⟩
    rw [Bool.and_eq_true, decide_eq_true_eq, Bool.not_eq_true', List.contains_eq_mem,
      decide_eq_false_iff_not] at hp
    exact ⟨p, hp.1, hp.2, after?_eq_some hafter⟩
  · rintro ⟨p, hne, hnot, rfl⟩
    exact ⟨p, after?_append marker p, by simp [hne, hnot]⟩

theorem isUnused_congr (h : ∀ p, p ∈ used ↔ p ∈ used') : isUnused used = isUnused used' := by
  funext name
  rw [Bool.eq_iff_iff, isUnused_eq_true_iff, isUnused_eq_true_iff]
  simp only [h]

/-- The declaration of a used prefix is not unused, nor is that of the default
namespace. -/
theorem isUnused_of_declaredBy (h : declaredBy name = some p) (hp : p = [] ∨ p ∈ used) :
    isUnused used name = false := by
  rw [Bool.eq_false_iff, ne_eq, isUnused_eq_true_iff]
  rintro ⟨q, hne, hnot, rfl⟩
  rw [(declaredBy_eq_some_iff hne).mpr rfl, Option.some.injEq] at h
  subst h
  exact hp.elim hne hnot

end Namespace

/-- Whether a written attribute goes is said by its name. -/
theorem WrittenPiece.any_declaration? (used : List Text) (p : WrittenPiece) :
    (p.declaration?.any fun d => d.nsPrefix ≠ [] && !used.contains d.nsPrefix) =
      Namespace.isUnused used p.name := by
  rw [declaration?, Namespace.isUnused]
  split
  · next hname =>
    rw [hname]
    rfl
  · cases after? Namespace.marker p.name with
    | none => rfl
    | some q =>
      cases q with
      | nil => rfl
      | cons c cs => simp [Option.filter]

theorem dropUnused_eq (used : List Text) (tag : Text) :
    dropUnused used tag = (TagText.ofText tag).without fun p => Namespace.isUnused used p.name := by
  rw [dropUnused]
  simp only [WrittenPiece.any_declaration?]

/-- Everything else in a tag stays, however the tag is written. -/
theorem infix_dropUnused {used : List Text} {tag : Text} {p : WrittenPiece}
    (hp : p ∈ (TagText.ofText tag).pieces) (hkept : Namespace.isUnused used p.name = false) :
    p.source <:+: dropUnused used tag := by
  obtain ⟨l, r, hsplit⟩ := List.append_of_mem hp
  rw [dropUnused_eq, TagText.without, hsplit, List.flatMap_append, List.flatMap_cons, hkept,
    if_neg Bool.false_ne_true]
  generalize (TagText.ofText tag).head = head
  generalize l.flatMap _ = front
  generalize r.flatMap _ = back
  exact ⟨head ++ front, back ++ (TagText.ofText tag).tail, by simp⟩

/-! ## Start tags -/

namespace StartTag

variable {t : StartTag} {used words : List Text} {selfClosing : Bool}

/-- The tag without the declarations of prefixes that are not used. -/
def pruned (used : List Text) (t : StartTag) : StartTag :=
  t.rewrite (.drop (Namespace.isUnused used))

theorem pieces_pruned (used : List Text) (t : StartTag) :
    (t.pruned used).pieces = t.pieces.filter fun p => !Namespace.isUnused used p.name :=
  pieces_rewrite_drop _ t

theorem pruned_pruned (used : List Text) (t : StartTag) :
    (t.pruned used).pruned used = t.pruned used := by
  have hpieces : ((t.pruned used).pruned used).pieces = (t.pruned used).pieces := by
    rw [pieces_pruned, pieces_pruned, List.filter_filter]
    simp only [Bool.and_self]
  calc (t.pruned used).pruned used
      = ⟨t.name, ((t.pruned used).pruned used).pieces, t.blanks⟩ := rfl
    _ = ⟨t.name, (t.pruned used).pieces, t.blanks⟩ := by rw [hpieces]

theorem Laid.pruned (h : t.Laid words) (used : List Text) : (t.pruned used).Laid words where
  name := h.name
  pieces := by
    intro p hp
    rw [pieces_pruned] at hp
    exact h.pieces p (List.mem_of_mem_filter hp)
  blanks := h.blanks

/-- **Dropping unused declarations drops them from the tag.** -/
theorem Laid.dropUnused_text (h : t.Laid words) (used : List Text) (selfClosing : Bool) :
    dropUnused used (t.text selfClosing) = (t.pruned used).text selfClosing := by
  rw [dropUnused_eq]
  exact without_text (h.ofText_text selfClosing) (fun p hp => (h.pieces p hp).skipped) _

end StartTag

/-- A tag without unused declarations is a token of the same kind. -/
theorem Token.IsTag.pruned {words used : List Text} {token : Token} {t : StartTag}
    {selfClosing : Bool} (h : token.IsTag words t selfClosing) :
    IsTag words { token with text := (t.pruned used).text selfClosing } (t.pruned used)
      selfClosing :=
  ⟨h.laid.pruned used, h.named, h.kind, rfl⟩

end SkinMarkup
