import SkinMarkup.Proofs.Document.Lenient
import SkinMarkup.Proofs.Tag.Children
import SkinMarkup.Proofs.Tag.Located

/-!
# Locations of what is built

A tag gets its location when it is opened, from the location of the innermost open tag
and the number of children that this one has so far. It keeps it, although it is added to
those children only when it is closed: in the meantime every other tag goes to the inside
of it. So each open tag has the location where it will be added
(`Builder.OpenLocated`), every step keeps that (`Builder.WellLocated.step`), and every
tree that is read is located (`located_rootOf`).
-/

namespace SkinMarkup

namespace Tag

variable {t u child : Tag} {location : List Nat}

theorem Located.congr (h : t.Located location) (hlocation : u.head.location = t.head.location)
    (hchildren : ∀ index, u.child? index = t.child? index) : u.Located location := by
  refine .intro (hlocation.trans h.location_eq) fun index child hchild => ?_
  rw [hchildren] at hchild
  exact h.child hchild

theorem located_of_tags_eq_nil (htags : t.tags = []) (hlocation : t.head.location = location) :
    t.Located location := by
  refine .intro hlocation fun index child hchild => ?_
  have hmem := child?_mem hchild
  rw [htags] at hmem
  cases hmem

end Tag

namespace Builder

variable {s : Source} {b next : Builder} {tag : Tag} {opened others : List Tag}

/-- Open tags, innermost first. What each has so far is located, and the tag itself is
where the next child of the one around it goes. -/
def OpenLocated : List Tag → Prop
  | [] => True
  | tag :: others => tag.Located (nextLocation others) ∧ OpenLocated others

/-- What has been built is located. -/
structure WellLocated (b : Builder) : Prop where
  root : ∀ tag ∈ b.root, tag.Located []
  opened : OpenLocated b.opened

/-- A new tag is where the next child of the innermost open tag goes. -/
theorem located_of_openTag {offset : Nat} {content source : Text}
    (h : b.openTag s offset content source = .ok tag) : tag.Located (nextLocation b.opened) := by
  obtain ⟨-, shown, attributes, -, -, rfl⟩ := openTag_eq_ok h
  exact Tag.located_of_tags_eq_nil rfl rfl

theorem OpenLocated.push (h : OpenLocated (tag :: others)) {child : Tag}
    (hchild : child.Located (nextLocation (tag :: others))) :
    OpenLocated (tag.push child :: others) := by
  obtain ⟨htag, hothers⟩ := h
  rw [nextLocation, htag.location_eq] at hchild
  exact ⟨htag.push hchild, hothers⟩

theorem WellLocated.attach (h : b.WellLocated) (htag : tag.Located (nextLocation b.opened)) :
    (b.attach tag).WellLocated := by
  obtain ⟨hroot, hopened⟩ := h
  unfold Builder.attach
  split
  · next parent others heq =>
    rw [heq] at hopened htag
    exact ⟨hroot, hopened.push htag⟩
  · next heq =>
    rw [heq] at htag
    refine ⟨?_, by rw [heq]; exact trivial⟩
    cases hr : b.root with
    | none =>
      rintro _ ⟨⟩
      exact htag
    | some r =>
      rintro _ ⟨⟩
      exact hroot r hr

/-- **A step keeps everything located.** -/
theorem WellLocated.step {offset : Nat} {event : Event} (h : b.WellLocated)
    (hstep : Step s b offset event next) : next.WellLocated := by
  cases hstep with
  | skip hkind => exact h
  | @leaf _ tag others leaf hkind heq hcount =>
    -- The leaf would move child tags behind it, but there are none yet.
    have hopened := h.opened
    rw [heq] at hopened
    have htags := Tag.tags_eq_nil_of_childCount hcount
    exact ⟨h.root, Tag.located_of_tags_eq_nil htags hopened.1.location_eq, hopened.2⟩
  | opening hopen => exact ⟨h.root, located_of_openTag hopen, h.opened⟩
  | empty hopen => exact h.attach ((located_of_openTag hopen).congr rfl fun _ => rfl)
  | @closing _ tag others heq hname =>
    have hopened := h.opened
    rw [heq] at hopened
    have hothers : WellLocated { b with opened := others } := ⟨h.root, hopened.2⟩
    exact hothers.attach (hopened.1.congr rfl fun _ => rfl)

/-- Closing all tags, each around the one before, leaves everything located. -/
theorem located_closeAll {stop : Nat} {inner : Option Tag} (h : OpenLocated opened)
    (hinner : ∀ tag ∈ inner, tag.Located (nextLocation opened)) :
    ∀ tag ∈ closeAll stop inner opened, tag.Located [] := by
  induction opened generalizing inner with
  | nil => exact hinner
  | cons tag others ih =>
    refine ih h.2 ?_
    rintro _ ⟨⟩
    have hfull : Tag.Located (nextLocation others) { tag with tags := tag.tags ++ inner.toList } := by
      cases inner with
      | none =>
        cases tag
        rw [Option.toList_none, List.append_nil]
        exact h.1
      | some child => exact (h.push (hinner child rfl)).1
    exact hfull.congr rfl fun _ => rfl

theorem WellLocated.rootClosedAt (h : b.WellLocated) (stop : Nat) :
    ∀ tag ∈ b.rootClosedAt stop, tag.Located [] := by
  rw [Builder.rootClosedAt]
  cases hr : b.root with
  | none => exact located_closeAll h.opened (by rintro _ ⟨⟩)
  | some r =>
    rintro _ ⟨⟩
    exact h.root r hr

end Builder

/-- **Every tree that is read is located**, whatever is wrong with its text. -/
theorem located_rootOf {t : Text} (hmark : t.head? ≠ some Source.mark) :
    (Source.rootOf t).Located [] := by
  obtain ⟨-, before, rest, -, hbuilt⟩ := Source.build_induction (fun _ b => b.WellLocated) hmark
    ⟨by rintro _ ⟨⟩, trivial⟩
    (fun _ _ hlocated hstep => hlocated.step (Builder.step_cases hstep))
  rw [Source.rootOf]
  cases hroot : (Source.ofText t).build.1.rootClosedAt (width t) with
  | none => exact Tag.located_of_tags_eq_nil rfl rfl
  | some root => exact hbuilt.rootClosedAt _ root hroot

end SkinMarkup
