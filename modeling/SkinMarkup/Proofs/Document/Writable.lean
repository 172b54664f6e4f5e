import SkinMarkup.Proofs.Attribute.Entries
import SkinMarkup.Proofs.Tag.RoundTrip

/-!
# What has been read can be written

A builder makes only tags that can be written, if their names are safe: each step keeps
this (`Builder.writable_step`), and it does not ask where an event stands. So it holds
of every tree that has been read, also from a text with a byte order mark, where the
source shows other texts than those that are read (`printable_of_mem_preorder`).
-/

namespace SkinMarkup

/-- A tag that can be written if its names are safe. -/
structure Tag.Writable (tag : Tag) : Prop where
  starts : Event.Starts tag.name
  nodup : (tag.head.attributes.map (·.name)).Nodup
  leaf : ∀ leaf ∈ tag.leaf, leaf.Printable

theorem Tag.Writable.printable {tag : Tag} (h : tag.Writable) (hsafe : tag.SafeNames) :
    tag.Printable :=
  ⟨⟨hsafe.1, h.starts, hsafe.2, h.nodup⟩, h.leaf⟩

namespace Builder

variable {s : Source} {b next : Builder} {offset : Nat} {event : Event}

theorem writable_attachLeaf (hb : b.Everywhere Tag.Writable) {leaf : Leaf}
    (hleaf : leaf.content ≠ [] → leaf.Printable) : (b.attachLeaf leaf).Everywhere Tag.Writable := by
  unfold attachLeaf
  split
  · exact hb
  · next tag others hopened =>
    split
    · next hcontent =>
      obtain ⟨hroot, hopen⟩ := hb
      rw [hopened, Tag.everywhere_cons] at hopen
      obtain ⟨⟨htag, hbelow⟩, hothers⟩ := hopen
      refine ⟨hroot, Tag.everywhere_cons.mpr ⟨⟨⟨htag.starts, htag.nodup, ?_⟩, hbelow⟩, hothers⟩⟩
      rintro _ ⟨⟩
      exact hleaf hcontent.2
    · exact hb

theorem writable_of_openTag {content source : Text} {tag : Tag} (hstarts : Event.Starts content)
    (h : b.openTag s offset content source = .ok tag) : tag.Writable ∧ tag.tags = [] := by
  obtain ⟨-, shown, attributes, -, hattributes, rfl⟩ := openTag_eq_ok h
  refine ⟨⟨?_, nodup_name_attributesOf hattributes, by rintro _ ⟨⟩⟩, rfl⟩
  intro c hc
  obtain ⟨rest, hname⟩ := List.head?_eq_some_iff.mp hc
  have hname : content.takeWhile (!isMarkupSpace ·) = c :: rest := hname
  have hcontent := List.takeWhile_append_dropWhile (p := (!isMarkupSpace ·)) (l := content)
  rw [hname] at hcontent
  exact hstarts c (by rw [← hcontent]; rfl)

theorem writable_stepText {raw : Text} (hb : b.Everywhere Tag.Writable)
    (h : b.stepText s offset raw = .ok next) : next.Everywhere Tag.Writable := by
  unfold stepText at h
  cases hshown : s.shown offset raw with
  | error failure => simp [hshown, bind, Except.bind] at h
  | ok shown =>
    simp only [hshown, bind, Except.bind, pure, Except.pure] at h
    split at h
    · cases h
      exact hb
    · cases hcontent : unescape raw with
      | error fault =>
        rw [hcontent] at h
        cases h
      | ok content =>
        rw [hcontent] at h
        change (if b.opened.isEmpty then Except.error _ else Except.ok _) = Except.ok next at h
        split at h
        · cases h
        · cases h
          exact writable_attachLeaf hb fun hne => ⟨hne, trimmed_trim content, by rintro ⟨⟩⟩

/-- **A step leaves only tags that can be written.** -/
theorem writable_step (hwhole : event.Whole) (hb : b.Everywhere Tag.Writable)
    (h : b.step s offset event = .ok next) : next.Everywhere Tag.Writable := by
  cases event with
  | text raw => exact writable_stepText hb h
  | cdata content =>
    cases h
    refine writable_attachLeaf hb fun hne => ⟨hne, trimmed_trim content, fun _ hend => ?_⟩
    obtain ⟨cs, -, hnext⟩ := hwhole []
    rw [Event.next, if_pos rfl] at hnext
    exact Event.not_end_of_nextMarkup_cdata hnext (hend.trans (trim_part content))
  | aside raw =>
    cases h
    exact hb
  | opening content =>
    cases step_cases h with
    | skip hkind => cases hkind
    | leaf _ hkind => cases hkind
    | opening hopen =>
      obtain ⟨htag, hnone⟩ := writable_of_openTag (hwhole.starts false) hopen
      refine ⟨hb.1, Tag.everywhere_cons.mpr ⟨⟨htag, ?_⟩, hb.2⟩⟩
      rw [hnone]
      exact Tag.everywhere_nil _
  | empty content =>
    cases step_cases h with
    | skip hkind => cases hkind
    | leaf _ hkind => cases hkind
    | empty hopen =>
      obtain ⟨htag, hnone⟩ := writable_of_openTag (hwhole.starts true) hopen
      refine everywhere_attach hb (Tag.everywhere_cons.mpr ⟨⟨⟨htag.starts, htag.nodup, htag.leaf⟩,
        ?_⟩, Tag.everywhere_nil _⟩) fun parent _ _ hparent =>
          ⟨hparent.starts, hparent.nodup, hparent.leaf⟩
      dsimp only
      rw [hnone]
      exact Tag.everywhere_nil _
  | closing content =>
    cases step_cases h with
    | skip hkind => cases hkind
    | leaf _ hkind => cases hkind
    | closing hopened hname =>
      obtain ⟨hroot, hopen⟩ := hb
      rw [hopened, Tag.everywhere_cons] at hopen
      obtain ⟨⟨htag, hbelow⟩, hothers⟩ := hopen
      exact everywhere_attach ⟨hroot, hothers⟩ (Tag.everywhere_cons.mpr
        ⟨⟨⟨htag.starts, htag.nodup, htag.leaf⟩, hbelow⟩, Tag.everywhere_nil _⟩)
          fun parent _ _ hparent => ⟨hparent.starts, hparent.nodup, hparent.leaf⟩

/-- **A run leaves only tags that can be written**, whatever the source shows. -/
theorem writable_run {events : List Event} (hwhole : ∀ event ∈ events, event.Whole)
    (hb : b.Everywhere Tag.Writable) (h : b.run s offset events = (next, none)) :
    next.Everywhere Tag.Writable := by
  induction events generalizing b offset with
  | nil =>
    cases h
    exact hb
  | cons event events ih =>
    obtain ⟨hfirst, hothers⟩ := List.forall_mem_cons.mp hwhole
    rw [run] at h
    split at h
    · cases h
    · next found hstep => exact ih hothers (writable_step hfirst hb hstep) h

end Builder

theorem Event.whole_of_mem_lexFrom {events : List Event} {offset : Nat} {t : Text}
    (h : lexFrom offset t = (events, none)) : ∀ event ∈ events, event.Whole := by
  induction events generalizing offset t with
  | nil => simp
  | cons event events ih =>
    obtain ⟨c, cs, rest, -, hnext, hothers⟩ := lexFrom_eq_cons h
    exact List.forall_mem_cons.mpr ⟨(whole_of_next hnext).1, ih hothers⟩

/-- Every tag of a tree that has been read can be written. -/
theorem writable_of_parseStrict {t : Text} {root : Tag} (h : parseStrict t = .ok root) :
    ∀ x ∈ root.preorder, x.Writable := by
  obtain ⟨hread, -⟩ := (parse_eq_ok_iff rfl).mp (parseStrict_eq_ok_iff.mp h)
  obtain ⟨events, hlex, hrun⟩ := Source.build_eq_none.mp (Source.read_eq_ok_nil.mp hread)
  have hstart : Builder.start.Everywhere Tag.Writable :=
    ⟨Tag.everywhere_nil _, Tag.everywhere_nil _⟩
  exact Tag.everywhere_singleton.mp
    (Builder.writable_run (Event.whole_of_mem_lexFrom hlex) hstart hrun).1

theorem Tag.mem_preorder_trans {x y z : Tag} (hxy : x ∈ y.preorder) (hyz : y ∈ z.preorder) :
    x ∈ z.preorder := by
  suffices ∀ ts : List Tag, y ∈ preorderAll ts → x ∈ preorderAll ts by
    have hx := this [z] (by rwa [preorderAll, preorderAll, List.append_nil])
    rwa [preorderAll, preorderAll, List.append_nil] at hx
  intro ts hy
  induction ts using trees_induction with
  | nil => exact absurd hy (by rw [preorderAll]; exact List.not_mem_nil)
  | cons tag ts ihtags ihts =>
    rw [preorderAll, preorder_eq, List.mem_append, List.mem_cons] at hy ⊢
    rcases hy with (rfl | hy) | hy
    · rw [preorder_eq, List.mem_cons] at hxy
      exact .inl hxy
    · exact .inl (.inr (ihtags hy))
    · exact .inr (ihts hy)

/-- **A tag of a tree that has been read is printable** if the names in it are safe. -/
theorem printable_of_mem_preorder {t : Text} {source donor : Tag} (h : parseStrict t = .ok source)
    (hdonor : donor ∈ source.preorder) (hsafe : ∀ x ∈ donor.preorder, x.SafeNames) :
    Tag.Everywhere Tag.Printable [donor] := by
  rw [Tag.everywhere_singleton]
  intro x hx
  exact (writable_of_parseStrict h x (Tag.mem_preorder_trans hx hdonor)).printable (hsafe x hx)

end SkinMarkup
