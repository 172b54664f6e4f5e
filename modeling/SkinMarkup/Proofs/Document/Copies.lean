import SkinMarkup.Proofs.Document.Appending
import SkinMarkup.Proofs.Document.Writable

/-!
# What adding a copy of a tag changes

Adding a copy of a tag to a tree is all or nothing: `Tag.append_spec` says when it
fails, that the tree then stays as it is, and that otherwise one tag gets one more
child and nothing else changes (`Tag.GrownAt`). The copy is written and read again, so
it says what a donor that can be written says, less the declarations that its new place
makes already (`Tag.unbound_adopt`).
-/

namespace SkinMarkup

/-! ## No text lacks a tag -/

/-- An issue with a text. A missing tag is an issue with a request. -/
def Issue.OfText (issue : Issue) : Prop :=
  ∀ location, issue ≠ .missingTag location

/-- A failure to read a text. -/
def ParseFailure.OfText (failure : ParseFailure) : Prop :=
  ∀ issue, failure = .issue issue → issue.OfText

namespace Source

variable {s : Source} {offset : Nat}

theorem ofText_malformed (cause : Malformation) : (s.malformed offset cause).OfText := by
  rintro _ ⟨⟩ location ⟨⟩

theorem ofText_of_shown {raw : Text} {failure : ParseFailure}
    (h : s.shown offset raw = .error failure) : failure.OfText := by
  unfold shown at h
  split at h
  · cases h
  · cases h
    rintro _ ⟨⟩

end Source

namespace Builder

variable {s : Source} {b next : Builder} {offset : Nat} {event : Event} {failure : ParseFailure}

theorem ofText_of_openTag {content source : Text}
    (h : b.openTag s offset content source = .error failure) : failure.OfText := by
  unfold openTag at h
  split at h
  · cases h
    rintro _ ⟨⟩ location ⟨⟩
  · cases hshown : s.shown offset source with
    | error found =>
      simp only [hshown, bind, Except.bind] at h
      cases h
      exact Source.ofText_of_shown hshown
    | ok shown =>
      simp only [hshown, bind, Except.bind] at h
      cases hattributes : attributesOf offset shown content with
      | error cause =>
        rw [hattributes] at h
        cases h
        exact Source.ofText_malformed _
      | ok attributes =>
        rw [hattributes] at h
        cases h

theorem ofText_of_stepText {raw : Text} (h : b.stepText s offset raw = .error failure) :
    failure.OfText := by
  unfold stepText at h
  cases hshown : s.shown offset raw with
  | error found =>
    simp only [hshown, bind, Except.bind] at h
    cases h
    exact Source.ofText_of_shown hshown
  | ok shown =>
    simp only [hshown, bind, Except.bind, pure, Except.pure] at h
    split at h
    · cases h
    · cases hcontent : unescape raw with
      | error fault =>
        rw [hcontent] at h
        cases h
        exact Source.ofText_malformed _
      | ok content =>
        rw [hcontent] at h
        change (if b.opened.isEmpty then Except.error _ else Except.ok _) = _ at h
        split at h
        · cases h
          rintro _ ⟨⟩ location ⟨⟩
        · cases h

/-- **A step that fails has found something wrong with the text.** -/
theorem ofText_of_step (h : b.step s offset event = .error failure) : failure.OfText := by
  cases event with
  | text raw => exact ofText_of_stepText h
  | opening content =>
    simp only [step, bind, Except.bind] at h
    split at h
    · next found hopen =>
      cases h
      exact ofText_of_openTag hopen
    · cases h
  | empty content =>
    simp only [step, bind, Except.bind] at h
    split at h
    · next found hopen =>
      cases h
      exact ofText_of_openTag hopen
    · cases h
  | closing content =>
    simp only [step, stepClosing] at h
    split at h
    · cases h
      exact Source.ofText_malformed _
    · split at h
      · cases h
      · cases h
        exact Source.ofText_malformed _
  | cdata content => cases h
  | aside raw => cases h

theorem ofText_of_run {events : List Event} (h : b.run s offset events = (next, some failure)) :
    failure.OfText := by
  induction events generalizing b offset with
  | nil => cases h
  | cons event events ih =>
    rw [run] at h
    split at h
    · next found hstep =>
      cases h
      exact ofText_of_step hstep
    · exact ih h

end Builder

theorem Source.ofText_of_build {s : Source} {b : Builder} {failure : ParseFailure}
    (h : s.build = (b, some failure)) : failure.OfText := by
  rcases hlex : Event.lex s.body with ⟨events, fault⟩
  rcases hrun : Builder.start.run s 0 events with ⟨found, stopped⟩
  simp only [build, hlex, hrun] at h
  cases stopped with
  | some stopped =>
    cases h
    exact Builder.ofText_of_run hrun
  | none =>
    cases fault with
    | some fault =>
      cases h
      exact ofText_malformed _
    | none => cases h

theorem Source.ofText_of_read {s : Source} :
    (∀ failure, s.read = .error failure → failure.OfText) ∧
      ∀ document, s.read = .ok document → ∀ issue ∈ document.issues, issue.OfText := by
  rcases hbuild : s.build with ⟨b, failure⟩
  cases failure with
  | some failure =>
    have hfailure := ofText_of_build hbuild
    cases failure with
    | misaligned =>
      simp only [read, hbuild]
      exact ⟨by rintro _ ⟨⟩ _ ⟨⟩, by rintro _ ⟨⟩⟩
    | issue issue =>
      simp only [read, hbuild]
      refine ⟨by rintro _ ⟨⟩, ?_⟩
      rintro _ ⟨⟩ found hfound
      rw [List.mem_singleton.mp hfound]
      exact hfailure issue rfl
  | none =>
    simp only [read, hbuild]
    cases b.rootClosedAt (width s.text) with
    | none =>
      refine ⟨by rintro _ ⟨⟩, ?_⟩
      rintro _ ⟨⟩ found hfound location
      rw [List.mem_singleton.mp hfound]
      rintro ⟨⟩
    | some root =>
      refine ⟨by rintro _ ⟨⟩, ?_⟩
      rintro _ ⟨⟩ found hfound location
      obtain ⟨tag, -, rfl⟩ := List.mem_map.mp hfound
      rintro ⟨⟩

/-- **No text lacks a tag at a location:** reading fails for other reasons. -/
theorem ofText_of_parseStrict {t : Text} {failure : ParseFailure}
    (h : parseStrict t = .error failure) : failure.OfText := by
  obtain ⟨herror, hok⟩ := Source.ofText_of_read (s := Source.ofText t)
  unfold parseStrict parse at h
  cases hread : (Source.ofText t).read with
  | error found =>
    simp only [hread, bind, Except.bind, Except.map] at h
    cases h
    exact herror _ hread
  | ok document =>
    simp only [hread, bind, Except.bind] at h
    cases hissues : document.issues with
    | nil =>
      rw [hissues] at h
      cases h
    | cons issue issues =>
      rw [hissues] at h
      cases h
      rintro _ ⟨⟩
      exact hok document hread issue (hissues ▸ List.mem_cons_self)

namespace Tag

/-! ## One more child -/

section

variable {t child new grown : Tag} {location : List Nat}

theorem child?_set (hchild : t.child? index = some child) (new : Tag) (place : Nat) :
    Tag.child? { t with tags := t.tags.set (index - t.leafCount) new } place =
      if place = index then some new else t.child? place := by
  have hcount : leafCount { t with tags := t.tags.set (index - t.leafCount) new } = t.leafCount := rfl
  unfold child? at hchild ⊢
  rw [hcount]
  split at hchild
  · cases hchild
  · next hindex =>
    obtain ⟨hlt, -⟩ := List.getElem?_eq_some_iff.mp hchild
    by_cases hplace : place < t.leafCount
    · rw [if_pos hplace, if_pos hplace, if_neg (by omega)]
    · rw [if_neg hplace, if_neg hplace]
      by_cases heq : place = index
      · rw [if_pos heq, heq, List.getElem?_set_self hlt]
      · rw [if_neg heq, List.getElem?_set_ne (by omega)]

/-- What lies neither on the way to a location nor below it does not change. -/
theorem descendant?_modifyAt_of_apart (f : Tag → Tag) {place : List Nat}
    (habove : ¬ place <+: location) (hbelow : ¬ location <+: place) :
    (t.modifyAt f location).descendant? place = t.descendant? place := by
  induction location generalizing t place with
  | nil => exact absurd (List.nil_prefix) hbelow
  | cons index rest ih =>
    cases place with
    | nil => exact absurd (List.nil_prefix) habove
    | cons first place =>
      rw [modifyAt]
      cases hchild : t.child? index with
      | none => rfl
      | some child =>
        rw [Tag.descendant?, Tag.descendant?]
        dsimp only
        rw [child?_set hchild]
        by_cases heq : first = index
        · subst heq
          rw [if_pos rfl, hchild]
          exact ih (fun h => habove (List.cons_prefix_cons.mpr ⟨rfl, h⟩))
            fun h => hbelow (List.cons_prefix_cons.mpr ⟨rfl, h⟩)
        · rw [if_neg heq]

/-- On the way to a location the change goes further down. -/
theorem descendant?_modifyAt_append (f : Tag → Tag) (place rest : List Nat) :
    (t.modifyAt f (place ++ rest)).descendant? place =
      (t.descendant? place).map (·.modifyAt f rest) := by
  induction place generalizing t with
  | nil => rfl
  | cons index place ih =>
    rw [List.cons_append, modifyAt]
    cases hchild : t.child? index with
    | none =>
      rw [Tag.descendant?, hchild]
      rfl
    | some child =>
      rw [Tag.descendant?, Tag.descendant?]
      dsimp only
      rw [child?_set hchild, if_pos rfl, hchild]
      exact ih

theorem modifyAt_cons_frame (f : Tag → Tag) (t : Tag) (index : Nat) (rest : List Nat) :
    (t.modifyAt f (index :: rest)).head = t.head ∧ (t.modifyAt f (index :: rest)).leaf = t.leaf ∧
      (t.modifyAt f (index :: rest)).tags.length = t.tags.length := by
  rw [modifyAt]
  cases t.child? index with
  | none => exact ⟨rfl, rfl, rfl⟩
  | some child => exact ⟨rfl, rfl, List.length_set⟩

/-- A tree with one more child somewhere: the tag at a location has it behind its other
children, the tags around it are as before otherwise, and all others are as before. -/
structure GrownAt (t : Tag) (location : List Nat) (new grown : Tag) : Prop where
  here : ∃ parent, t.descendant? location = some parent ∧
    grown.descendant? location = some (parent.push new)
  around : ∀ place index rest, location = place ++ index :: rest →
    ∃ before after, t.descendant? place = some before ∧ grown.descendant? place = some after ∧
      after.head = before.head ∧ after.leaf = before.leaf ∧
      after.tags.length = before.tags.length
  apart : ∀ place, ¬ place <+: location → ¬ location <+: place →
    grown.descendant? place = t.descendant? place

theorem exists_descendant?_of_append {place rest : List Nat} {x : Tag}
    (h : t.descendant? (place ++ rest) = some x) : ∃ y, t.descendant? place = some y := by
  induction place generalizing t with
  | nil => exact ⟨t, rfl⟩
  | cons index place ih =>
    rw [List.cons_append, Tag.descendant?] at h
    rw [Tag.descendant?]
    split at h
    · exact ih h
    · cases h

/-- **Adding a child to one tag does nothing else.** -/
theorem grownAt_modifyAt {parent : Tag} (hparent : t.descendant? location = some parent)
    (new : Tag) : t.GrownAt location new (t.modifyAt (·.push new) location) where
  here := by
    have hhere := descendant?_modifyAt_append (t := t) (·.push new) location []
    rw [List.append_nil, hparent] at hhere
    exact ⟨parent, hparent, hhere⟩
  around := by
    rintro place index rest rfl
    obtain ⟨before, hbefore⟩ := exists_descendant?_of_append hparent
    refine ⟨before, before.modifyAt (·.push new) (index :: rest), hbefore, ?_,
      modifyAt_cons_frame _ before index rest⟩
    rw [descendant?_modifyAt_append, hbefore]
    rfl
  apart := fun _ => descendant?_modifyAt_of_apart _

end

/-! ## What a copy says -/

mutual

/-- A tree that stands nowhere and whose names are bound to nothing. -/
def unbound : Tag → Tag
  | ⟨head, leaf, tags⟩ => ⟨{ head.bare with uri := [] }, leaf.map Leaf.bare, unboundAll tags⟩

/-- Trees that stand nowhere and whose names are bound to nothing. -/
def unboundAll : List Tag → List Tag
  | [] => []
  | t :: ts => unbound t :: unboundAll ts

end

theorem unbound_eq (t : Tag) :
    t.unbound = ⟨{ t.head.bare with uri := [] }, t.leaf.map Leaf.bare, unboundAll t.tags⟩ := by
  cases t
  rw [unbound]

theorem unboundAll_map_bare (ts : List Tag) : unboundAll (ts.map bare) = unboundAll ts := by
  induction ts using trees_induction with
  | nil => rfl
  | cons tag ts ihtags ihts =>
    rw [List.map_cons, unboundAll, unboundAll, ihts, unbound_eq, unbound_eq, bare_tags, ihtags,
      bare_head, bare_leaf, Option.map_map]
    congr 2
    rw [TagHead.bare, TagHead.bare, List.map_map]
    rfl

theorem unbound_bare (t : Tag) : t.bare.unbound = t.unbound := by
  have h := unboundAll_map_bare [t]
  rw [List.map_singleton, unboundAll, unboundAll, unboundAll, unboundAll] at h
  exact (List.cons.inj h).1

theorem unbound_relink (location : List Nat) (t : Tag) :
    (t.relink location).unbound = t.unbound := by
  rw [← unbound_bare, bare_relink, unbound_bare]

theorem unboundAll_bindAll (scopes : List (List Namespace)) (ts : List Tag) :
    unboundAll (bindAll scopes ts) = unboundAll ts := by
  induction ts using trees_induction generalizing scopes with
  | nil => rfl
  | cons tag ts ihtags ihts =>
    rw [bindAll, unboundAll, unboundAll, ihts, ← unbound_bare tag, unbound_eq, unbound_eq, bind_eq,
      bare_head, bare_leaf, bare_tags, unboundAll_map_bare]
    dsimp only
    rw [ihtags]
    rfl

theorem unbound_bind (scopes : List (List Namespace)) (t : Tag) :
    (t.bind scopes).unbound = t.unbound := by
  have h := unboundAll_bindAll scopes [t]
  rw [bindAll, bindAll, unboundAll, unboundAll, unboundAll, unboundAll] at h
  exact (List.cons.inj h).1

theorem unboundAll_rebindAll (scope : List Namespace) (ts : List Tag) :
    unboundAll (rebindAll scope ts) = unboundAll ts := by
  induction ts using trees_induction generalizing scope with
  | nil => rfl
  | cons tag ts ihtags ihts =>
    obtain ⟨head, leaf, tags⟩ := tag
    rw [rebindAll, unboundAll, unboundAll, ihts, rebind, unbound, unbound, ihtags]
    rfl

theorem unbound_rebind (scope : List Namespace) (t : Tag) :
    (t.rebind scope).unbound = t.unbound := by
  have h := unboundAll_rebindAll scope [t]
  rw [rebindAll, rebindAll, unboundAll, unboundAll, unboundAll, unboundAll] at h
  exact (List.cons.inj h).1

/-- Whether an attribute declares a prefix that a tag on the way from `root` to a
location declares. -/
def redeclares (root : Tag) (location : List Nat) (a : Attribute) : Bool :=
  match after? Namespace.marker a.name with
  | some p => (root.chain location).any fun x =>
      x.head.attributes.any fun b => Namespace.declaredBy b.name = some p
  | none => false

variable {root donor copy grown : Tag} {location : List Nat} {scope : List Namespace}

/-- The declarations around a location are those of the tags on the way to it. -/
theorem any_scopeAt? (h : root.scopeAt? location = some scope) (p : Text) :
    (scope.any fun binding => binding.nsPrefix = p) =
      (root.chain location).any fun x =>
        x.head.attributes.any fun b => Namespace.declaredBy b.name = some p := by
  have hdeclarations : ∀ x : Tag, (x.head.declarations.any fun binding => binding.nsPrefix = p) =
      x.head.attributes.any fun b => Namespace.declaredBy b.name = some p := by
    intro x
    rw [TagHead.declarations, Attribute.declarations, List.any_filterMap]
    congr 1
    funext b
    rw [Attribute.declaration?]
    cases Namespace.declaredBy b.name <;> simp
  induction location generalizing root scope with
  | nil =>
    cases h
    rw [hdeclarations, chain, List.any_cons, List.any_nil, Bool.or_false]
  | cons index rest ih =>
    rw [scopeAt?] at h
    cases hchild : root.child? index with
    | none =>
      rw [hchild] at h
      cases h
    | some child =>
      rw [hchild] at h
      obtain ⟨below, hbelow, rfl⟩ := Option.map_eq_some_iff.mp h
      rw [List.any_append, hdeclarations, ih hbelow, chain, hchild]
      dsimp only
      rw [List.any_append, List.any_cons, List.any_nil, Bool.or_false, Bool.or_comm]

theorem dropKnown_eq_filter (h : root.scopeAt? location = some scope) (attributes : List Attribute) :
    dropKnown scope attributes = attributes.filter fun a => !root.redeclares location a := by
  rw [dropKnown]
  congr 1
  funext a
  rw [redeclares]
  cases after? Namespace.marker a.name with
  | none => rfl
  | some p =>
    dsimp only
    rw [any_scopeAt? h]

/-- **What is read back of a donor says what the donor says,** less the declarations
that the new place makes. -/
theorem unbound_adopt (hscope : root.scopeAt? location = some scope)
    (hcopy : copy.unbound = donor.unbound) (place : List Nat) :
    (copy.adopt scope place).unbound =
      donor.unbound.mapAttributes (·.filter fun a => !root.redeclares location a) := by
  rw [adopt, unbound_relink, unbound_rebind, ← hcopy, unbound_eq copy, mapAttributes, unbound_eq,
    dropKnown_eq_filter hscope, mapAttributes]
  simp only [TagHead.bare, List.filter_map]
  rfl

/-- **Adding a copy of a tag is all or nothing.** It fails when the donor, written, is no
document, or else when there is no tag at the location, and then the tree is as before.
Otherwise the tag at the location has one more child and nothing else has changed. If
the donor has been read from a text and the names in it are safe, the new child has its
name, leaf and child tags with all their attributes, and its own attributes in order
except the declarations of prefixes that a tag on the way to the location declares. -/
theorem append_spec (root : Tag) (location : List Nat) (donor : Tag) :
    ((∃ missing, root.append location donor = .error (.issue (.missingTag missing))) ↔
      (∃ copy, parseStrict donor.render = .ok copy) ∧ root.descendant? location = none) ∧
    match root.append location donor with
    | .error failure => root.appended location donor = root ∧
        (parseStrict donor.render = .error failure ∨
          (∃ copy, parseStrict donor.render = .ok copy) ∧ root.descendant? location = none ∧
            failure = .issue (.missingTag location))
    | .ok grown => root.appended location donor = grown ∧
        ∃ new, root.GrownAt location new grown ∧
          ∀ t source, parseStrict t = .ok source → donor ∈ source.preorder →
            (∀ x ∈ donor.preorder, x.SafeNames) →
            new.unbound =
              donor.unbound.mapAttributes (·.filter fun a => !root.redeclares location a) := by
  unfold append appended
  rcases root.appendChild_cases location donor with
    ⟨failure, hfailed, hcause⟩ | ⟨copy, scope, parent, hcopy, hscope, hparent, hgrown⟩
  · rw [hfailed]
    refine ⟨⟨?_, ?_⟩, rfl, hcause⟩
    · rintro ⟨missing, ⟨⟩⟩
      rcases hcause with herror | ⟨hcopy, hnone, -⟩
      · exact absurd rfl (ofText_of_parseStrict herror _ rfl missing)
      · exact ⟨hcopy, hnone⟩
    · rintro ⟨⟨copy, hcopy⟩, -⟩
      rcases hcause with herror | ⟨-, -, rfl⟩
      · cases hcopy.symm.trans herror
      · exact ⟨location, rfl⟩
  · rw [hgrown]
    refine ⟨⟨?_, ?_⟩, rfl, _, grownAt_modifyAt hparent _, ?_⟩
    · rintro ⟨missing, ⟨⟩⟩
    · rintro ⟨-, hnone⟩
      cases hnone.symm.trans hparent
    · intro t source hsource hdonor hsafe
      obtain ⟨copy', hcopy', hbare⟩ :=
        parseStrict_render (printable_of_mem_preorder hsource hdonor hsafe)
      cases hcopy.symm.trans hcopy'
      refine unbound_adopt hscope ?_ _
      rw [← unbound_bare, hbare, unbound_bind]

/-- A donor behind a byte order mark that declares one prefix again and one anew. Its
child keeps what it declares. -/
theorem append_spec_of_redeclared :
    ∃ root donor grown new,
      parseStrict "<p:a xmlns:p='1'><b xmlns='2'/></p:a>".toList = .ok root ∧
      parseStrict "\uFEFF<x xmlns:p='3' y='&lt;' xmlns:r='4'> t <c xmlns:p='5'><![CDATA[ ]] ]]></c></x>".toList =
        .ok donor ∧
      (∀ x ∈ donor.preorder, x.SafeNames) ∧ root.append [0] donor = .ok grown ∧
      root.GrownAt [0] new grown ∧
      new.unbound = donor.unbound.mapAttributes (·.filter fun a => !root.redeclares [0] a) ∧
      new.head.attributes.map Attribute.entry = [(['y'], ['<']), ("xmlns:r".toList, ['4'])] := by
  have hany : (parseStrict "<p:a xmlns:p='1'><b xmlns='2'/></p:a>".toList).toOption.any
      (fun root => (parseStrict
        "\uFEFF<x xmlns:p='3' y='&lt;' xmlns:r='4'> t <c xmlns:p='5'><![CDATA[ ]] ]]></c></x>".toList).toOption.any
          fun donor => (root.append [0] donor).toOption.any fun _ =>
            decide (∀ x ∈ donor.preorder, x.SafeNames) && decide
              ((donor.unbound.mapAttributes (·.filter fun a =>
                !root.redeclares [0] a)).head.attributes.map Attribute.entry =
                  [(['y'], ['<']), ("xmlns:r".toList, ['4'])])) = true := by
    decide +kernel
  obtain ⟨root, hroot, hany⟩ := exists_of_any_toOption hany
  obtain ⟨donor, hdonor, hany⟩ := exists_of_any_toOption hany
  obtain ⟨grown, hgrown, hany⟩ := exists_of_any_toOption hany
  obtain ⟨hsafe, hentries⟩ := Bool.and_eq_true_iff.mp hany
  have hsafe := of_decide_eq_true hsafe
  have hspec := (append_spec root [0] donor).2
  rw [hgrown] at hspec
  obtain ⟨-, new, hnew, hsays⟩ := hspec
  have hunbound := hsays _ donor hdonor (mem_preorder_self donor) hsafe
  refine ⟨root, donor, grown, new, hroot, hdonor, hsafe, hgrown, hnew, hunbound, ?_⟩
  rw [← of_decide_eq_true hentries, ← hunbound, unbound_eq]
  simp [TagHead.bare, Attribute.entry, Attribute.bare, Attribute.unplaced]

end Tag

end SkinMarkup
