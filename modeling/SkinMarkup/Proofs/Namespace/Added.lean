import SkinMarkup.Proofs.Namespace.Cleaned
import SkinMarkup.Proofs.State.Fronted

/-!
# Cleaning a text undoes an added declaration

A declaration is added to the root behind its last declaration, or else behind its
last attribute. The root stays a token of its kind, and if no element has the prefix,
cleaning drops the declaration again. Behind a name that ends in blanks the
declaration is not the last thing in the tag: the blanks stand behind it. Without
the declaration they are a part of the name again (`restores_fronted`).
-/

namespace SkinMarkup

/-! ## A written declaration -/

/-- A namespace that can be written in double quotes. -/
structure Namespace.Writable (n : Namespace) : Prop where
  nonempty : n.nsPrefix ≠ []
  chars : NameChars n.nsPrefix
  quote : '"' ∉ n.uri
  backslash : '\\' ∉ n.uri

namespace Namespace

variable {n : Namespace} {used : List Text}

/-- A prefix that is a name can be declared. -/
theorem writable_of_isXmlName (hprefixed : isXmlName n.nsPrefix = true)
    (huri : ∀ c ∈ n.uri, c ≠ '"' ∧ c ≠ '\\') : n.Writable where
  nonempty := ne_nil_of_isXmlName hprefixed
  chars := nameChars_of_isXmlName hprefixed
  quote := fun h => (huri _ h).1 rfl
  backslash := fun h => (huri _ h).2 rfl

/-- The attribute that declares a namespace. -/
def piece (n : Namespace) : WrittenPiece :=
  .usual (attributeName n.nsPrefix) n.uri

theorem render_eq (n : Namespace) : n.render = [n.piece].flatMap WrittenPiece.source := by
  simp [render, piece, WrittenPiece.usual, WrittenPiece.source, WrittenPiece.extent,
    WrittenPiece.quoted]

theorem attributeName_ne_nil (nsPrefix : Text) : attributeName nsPrefix ≠ [] := by
  rw [attributeName]
  split <;> simp [keyword, marker]

theorem nameChars_attributeName {nsPrefix : Text} (h : NameChars nsPrefix) :
    NameChars (attributeName nsPrefix) := by
  have hkeyword : NameChars keyword := by decide
  have hmarker : NameChars marker := by decide
  rw [attributeName]
  split
  · exact hkeyword
  · exact fun c hc => (List.mem_append.mp hc).elim (hmarker c) (h c)

theorem Writable.laid (h : n.Writable) : n.piece.Laid [] where
  toProper :=
    StartTag.proper_usual (attributeName_ne_nil _) (nameChars_attributeName h.chars) h.quote
  spaced := List.cons_ne_nil _ _
  backslash := h.backslash
  spares := nofun

theorem Writable.isUnused (h : n.Writable) (hused : n.nsPrefix ∉ used) :
    Namespace.isUnused used n.piece.name = true :=
  isUnused_eq_true_iff.mpr ⟨n.nsPrefix, h.nonempty, hused, if_neg h.nonempty⟩

end Namespace

/-- A tag that is not divided declares no namespace. -/
theorem WrittenPiece.forall_of_splitAfterDeclarations {pieces : List WrittenPiece}
    (h : splitAfterDeclarations pieces = none) : ∀ p ∈ pieces, p.declaration? = none := by
  induction pieces with
  | nil => exact List.forall_mem_nil _
  | cons p pieces ih =>
    rw [splitAfterDeclarations] at h
    split at h
    · cases h
    · next hsplit =>
      split at h
      · cases h
      · next hnone => exact List.forall_mem_cons.mpr ⟨by simpa using hnone, ih hsplit⟩

/-- Where a tag is divided if it declares namespaces: nothing behind declares one. -/
theorem WrittenPiece.exists_of_splitAfterDeclarations {pieces : List WrittenPiece}
    {before after : Text} (h : splitAfterDeclarations pieces = some (before, after)) :
    ∃ l r, pieces = l ++ r ∧ before = l.flatMap source ∧ after = r.flatMap source ∧
      ∀ p ∈ r, p.declaration? = none := by
  induction pieces generalizing before with
  | nil => cases h
  | cons p pieces ih =>
    rw [splitAfterDeclarations] at h
    split at h
    · next hsplit =>
      cases h
      obtain ⟨l, r, rfl, rfl, rfl, hnone⟩ := ih hsplit
      exact ⟨p :: l, r, rfl, rfl, rfl, hnone⟩
    · next hsplit =>
      split at h
      · cases h
        exact ⟨[p], pieces, rfl, by simp, rfl, forall_of_splitAfterDeclarations hsplit⟩
      · cases h

/-! ## Tags that come to the same -/

/-- A text that can take the place of a start tag: it is a token of the same kind and
comes to the same without unused declarations. -/
structure Token.Restores (used : List Text) (token : Token) (text : Text) : Prop where
  isCut : Token.IsCut { token with text }
  nsPrefix : Token.nsPrefix? { token with text } = token.nsPrefix?
  cleaned : dropUnused used text = dropUnused used token.text

theorem Segment.alike_retag {used : List Text} {s : Segment} {text : Text}
    (hstart : s.token.isStart = true) (h : s.token.Restores used text) :
    Alike used s (s.retag text) where
  toRecut := recut_retag h.isCut
  nsPrefix := fun _ => h.nsPrefix
  cleaned := by
    rw [cleaned_of_isStart hstart, cleaned_of_isStart (isStart_retag hstart)]
    exact h.cleaned

namespace StartTag

variable {t : StartTag} {l r : List WrittenPiece} {q : WrittenPiece} {used words : List Text}
  {token : Token} {selfClosing : Bool} {n : Namespace}

/-- An attribute that goes does not matter. -/
theorem pruned_insert (hsplit : t.pieces = l ++ r) (hq : Namespace.isUnused used q.name = true) :
    pruned used { t with pieces := l ++ q :: r } = t.pruned used := by
  have hpieces : (pruned used { t with pieces := l ++ q :: r }).pieces = (t.pruned used).pieces := by
    rw [pieces_pruned, pieces_pruned, hsplit, List.filter_append, List.filter_append,
      List.filter_cons_of_neg (by simp [hq])]
  calc pruned used { t with pieces := l ++ q :: r }
      = ⟨t.name, (pruned used { t with pieces := l ++ q :: r }).pieces, t.blanks⟩ := rfl
    _ = ⟨t.name, (t.pruned used).pieces, t.blanks⟩ := by rw [hpieces]

/-- **A declaration among the attributes of a tag goes again.** -/
theorem restores_insert (h : token.IsTag [] t selfClosing) (hn : n.Writable)
    (hused : n.nsPrefix ∉ used) (hsplit : t.pieces = l ++ r) :
    token.Restores used (text selfClosing { t with pieces := l ++ n.piece :: r }) := by
  have hlaid : Laid [] { t with pieces := l ++ n.piece :: r } := by
    refine ⟨h.laid.name, fun p hp => ?_, h.laid.blanks⟩
    have hold : ∀ p ∈ l ++ r, p.Laid [] := hsplit ▸ h.laid.pieces
    simp only [List.mem_append, List.mem_cons] at hp hold
    rcases hp with hp | rfl | hp
    · exact hold p (Or.inl hp)
    · exact hn.laid
    · exact hold p (Or.inr hp)
  have htag : Token.IsTag [] { token with
      text := text selfClosing { t with pieces := l ++ n.piece :: r } }
      { t with pieces := l ++ n.piece :: r } selfClosing := ⟨hlaid, h.named, h.kind, rfl⟩
  refine ⟨htag.isCut, ?_, ?_⟩
  · rw [Token.nsPrefix?, htag.name_eq, Token.nsPrefix?, h.name_eq]
  · rw [hlaid.dropUnused_text, h.text, h.laid.dropUnused_text,
      pruned_insert hsplit (hn.isUnused hused)]

/-! ## Behind a name that ends in blanks -/

/-- The prefix of a name is before the blanks that it ends in. -/
theorem prefixOf_append {name moved : Text} (hmoved : ':' ∉ moved) :
    prefixOf (name ++ moved) = prefixOf name := by
  rw [prefixOf, prefixOf]
  cases hcut : cutAt ':' name with
  | none =>
    have hnot := cutAt_eq_none_iff.mp hcut
    rw [cutAt_eq_none_iff.mpr (by simp [hnot, hmoved])]
  | some parts =>
    obtain ⟨front, back⟩ := parts
    have hfront := not_mem_of_cutAt hcut
    rw [cutAt_eq_some hcut, List.append_assoc, List.cons_append, cutAt_append hfront]
    rfl

/-- **A declaration behind a name that ends in blanks goes again.** The blanks that
stand behind it belong to the name then. -/
theorem restores_fronted (h : token.IsTag [] t selfClosing) (hn : n.Writable)
    (hused : n.nsPrefix ∉ used) (hnil : t.pieces = []) :
    token.Restores used ((t.fronted n.piece).text selfClosing) := by
  have hcolon : ':' ∉ takeEndWhile isBlank t.name := by
    intro hmem
    cases blanks_takeEndWhile t.name _ hmem
  refine ⟨h.laid.isCut_fronted hn.laid h.kind, ?_, ?_⟩
  · rw [Token.nsPrefix?, h.laid.name_fronted hn.laid h.kind, Token.nsPrefix?, h.name_eq,
      ← name_append t, prefixOf_append hcolon]
    rw [name_append t]
  · -- The division of the tag stops behind the declaration.
    have hself : t.pruned used = t := by
      refine rewrite_eq_self fun p hp => ?_
      rw [hnil] at hp
      cases hp
    rw [h.text, h.laid.dropUnused_text, hself, dropUnused_eq, h.laid.ofText_fronted hn.laid,
      TagText.without]
    simp only [List.flatMap_cons, hn.isUnused hused, if_true, List.flatMap_nil]
    conv_rhs => rw [text, content, hnil, ← name_append t]
    simp [fronted, Namespace.piece, WrittenPiece.usual]

/-- **Wherever a declaration is added to a tag, it goes again.** -/
theorem restores_declared (h : token.IsTag [] t selfClosing) (hn : n.Writable)
    (hused : n.nsPrefix ∉ used) :
    token.Restores used
      ((splitForDeclaration token).1 ++ n.render ++ (splitForDeclaration token).2) := by
  rw [splitForDeclaration, h.text, h.laid.ofText_text]
  dsimp only
  cases hsplit : WrittenPiece.splitAfterDeclarations t.pieces with
  | some parts =>
    obtain ⟨l, r, hpieces, hbefore, hafter, -⟩ :=
      WrittenPiece.exists_of_splitAfterDeclarations hsplit
    have htext := restores_insert h hn hused hpieces
    rw [text, content] at htext
    simpa [n.render_eq, hbefore, hafter] using htext
  | none =>
    have hinsert : ∀ head : Text, head = insertionHead token.kind (t.text selfClosing) →
        head ++ n.render ++ (t.text selfClosing).drop head.length =
          insertRaw (.ofStart selfClosing) ([n.piece].flatMap WrittenPiece.source)
            (t.text selfClosing) := by
      rintro head rfl
      rw [insertRaw, h.kind, n.render_eq]
    dsimp only
    rw [hinsert _ rfl]
    by_cases hnil : t.pieces = []
    · rw [List.flatMap_singleton, h.laid.insertRaw_bare hnil]
      exact restores_fronted h hn hused hnil
    · rw [h.laid.insertRaw_text fun hempty => absurd hempty hnil]
      exact restores_insert h hn hused (List.append_nil t.pieces).symm

end StartTag

/-! ## Adding a namespace to a text -/

/-- What adding a namespace does to a text. -/
theorem addNamespace_cases (n : Namespace) (t : Text) :
    (addNamespace n t).outcome.text = t ∨
      ∃ split, splitAtRoot t = some split ∧ (addNamespace n t).outcome.text =
        split.before ++ ((splitForDeclaration split.root).1 ++ n.render ++
          (splitForDeclaration split.root).2) ++ split.after := by
  rw [addNamespace]
  cases hsplit : splitAtRoot t with
  | none => exact Or.inl rfl
  | some split =>
    dsimp only
    split
    · exact Or.inl rfl
    · split
      · exact Or.inl rfl
      · exact Or.inr ⟨split, rfl, by simp⟩

/-- **Cleaning undoes an added namespace** if no element has its prefix. -/
theorem LaidOut.cleanNamespaces_addNamespace {t : Text} (h : LaidOut t) {n : Namespace}
    (hn : n.Writable) (hused : n.nsPrefix ∉ Segment.used (scan t).segments) :
    cleanNamespaces (addNamespace n t).outcome.text = cleanNamespaces t := by
  rcases addNamespace_cases n t with hsame | ⟨split, hroot, htext⟩
  · rw [hsame]
  obtain ⟨hstart, front, s, after, hsegments, hs, hbefore, hafter⟩ := exists_of_splitAtRoot hroot
  rw [← hs] at hstart htext
  have hmem : s ∈ (scan t).segments := by
    rw [hsegments]
    simp
  obtain ⟨st, selfClosing, htag⟩ := h s hmem hstart
  have halike : List.Forall₂ (Segment.Alike (Segment.used (scan t).segments)) (scan t).segments
      (front ++ s.retag ((splitForDeclaration s.token).1 ++ n.render ++
        (splitForDeclaration s.token).2) :: after) := by
    have hself : ∀ x ∈ (scan t).segments, Segment.Alike (Segment.used (scan t).segments) x x :=
      fun x hx => Segment.alike_self ((Scan.divides_scanFrom 0 0 t).isCut x hx).token
    have hroot := Segment.alike_retag hstart (StartTag.restores_declared htag hn hused)
    generalize Segment.used (scan t).segments = used at hself hroot ⊢
    rw [hsegments] at hself ⊢
    refine List.rel_append (List.forall₂_same.mpr fun x hx => hself x (by simp [hx]))
      (.cons hroot (List.forall₂_same.mpr fun x hx => hself x (by simp [hx])))
  rw [htext, hbefore, hafter, ← cleanNamespaces_of_alike halike, Segment.sourceAll_append,
    Segment.sourceAll_cons]
  simp [Segment.retag]

end SkinMarkup
