import SkinMarkup.Path.Basic
import SkinMarkup.Proofs.Path.Selection
import SkinMarkup.Proofs.Visibility.Agreement

/-!
# Three ways to look up a path

A path can be followed in the tree, looked for in the text, and found again
from the place where it leads. `lookups_agree` says that the three agree on
every tag that the tree has at a path.
-/

namespace SkinMarkup

/-- A member of a filtered list stands behind as many members as its index
says. -/
theorem split_of_filter_getElem? {p : Tag → Bool} {ts : List Tag} {index : Nat} {x : Tag}
    (h : (ts.filter p)[index]? = some x) :
    ∃ before after, ts = before ++ x :: after ∧ before.countP p = index ∧ p x = true := by
  induction ts generalizing index with
  | nil => simp at h
  | cons tag ts ih =>
    cases hp : p tag with
    | false =>
      rw [List.filter_cons_of_neg (by simp [hp])] at h
      obtain ⟨before, after, rfl, hcount, hx⟩ := ih h
      refine ⟨tag :: before, after, rfl, ?_, hx⟩
      rw [List.countP_cons_of_neg (by simp [hp]), hcount]
    | true =>
      rw [List.filter_cons_of_pos hp] at h
      cases index with
      | zero =>
        obtain rfl : tag = x := by simpa using h
        exact ⟨[], ts, rfl, rfl, hp⟩
      | succ index =>
        rw [List.getElem?_cons_succ] at h
        obtain ⟨before, after, rfl, hcount, hx⟩ := ih h
        refine ⟨tag :: before, after, rfl, ?_, hx⟩
        rw [List.countP_cons_of_pos hp, hcount]

namespace Trail

/-- A path in a tree is that of a trail of visible tags. -/
theorem exists_trail_of_visibleDescendant? {d : Dialect} {state : Option Text} {child x : Tag}
    {rest : List Nat} :
    ∀ {ts : List Tag} {index : Nat}, (ts.filter (·.isVisible d state))[index]? = some child →
      child.visibleDescendant? d state rest = some x →
      ∃ trail passed, Through ts (trail ++ [(passed, x)]) ∧
        path (Tag.isVisible d state) (trail ++ [(passed, x)]) = index :: rest ∧
        ∀ y ∈ line (trail ++ [(passed, x)]), y.isVisible d state = true := by
  induction rest generalizing child with
  | nil =>
    intro ts index hchild hx
    obtain rfl : child = x := by simpa [Tag.visibleDescendant?] using hx
    obtain ⟨before, after, rfl, hcount, hvisible⟩ := split_of_filter_getElem? hchild
    refine ⟨[], before, ⟨⟨after, rfl⟩, trivial⟩, ?_, ?_⟩
    · rw [List.nil_append, path_cons, path_nil, hcount]
    · simpa [line] using hvisible
  | cons next rest ih =>
    intro ts index hchild hx
    rw [Tag.visibleDescendant?] at hx
    split at hx
    · next grandchild hgrandchild =>
      obtain ⟨before, after, rfl, hcount, hvisible⟩ := split_of_filter_getElem? hchild
      obtain ⟨trail, passed, hthrough, hpath, hall⟩ := ih hgrandchild hx
      refine ⟨(before, child) :: trail, passed, ⟨⟨after, rfl⟩, hthrough⟩, ?_, ?_⟩
      · rw [List.cons_append, path_cons, hcount, hpath]
      · intro y hy
        rcases List.mem_cons.mp hy with rfl | hy
        · exact hvisible
        · exact hall y hy
    · cases hx

theorem path_congr {p q : Tag → Bool} {ts : List Tag} {trail : Trail} (h : Through ts trail)
    (hpq : Tag.Everywhere (fun x => p x = q x) ts) : path p trail = path q trail := by
  induction trail generalizing ts with
  | nil => rfl
  | cons step trail ih =>
    obtain ⟨passed, tag⟩ := step
    obtain ⟨⟨after, rfl⟩, htrail⟩ := h
    have hpassed : passed.countP p = passed.countP q :=
      List.countP_congr fun x hx => by
        rw [hpq x (Tag.mem_preorderAll_of_mem (List.mem_append_left _ hx))]
    have hbelow : Tag.Everywhere (fun x => p x = q x) tag.tags := fun x hx =>
      hpq x (Tag.mem_preorderAll_of_mem_tags (List.mem_append_right _ List.mem_cons_self) hx)
    rw [path_cons, path_cons, hpassed, ih htrail hbelow]

end Trail

/-! ## Documents -/

variable {d : Dialect} {state : Option Text} {t : Text} {root tag : Tag}

/-- The names and prefixes of a document that let a scan judge its tags: all
names are proper ones, and tags with the working prefix say nothing about
states. -/
structure Tag.WellNamed (d : Dialect) (root : Tag) : Prop where
  names : ∀ x ∈ root.preorder, isName x.name = true
  working : ∀ x ∈ root.preorder, prefixOf x.name = some d.workingPrefix → x.Unscoped

/-- In a document with proper names, tags and tokens are visible alike. -/
theorem everywhere_shown_eq (state : Option Text) (hplain : Plain t) (h : parseStrict t = .ok root)
    (hnamed : root.WellNamed d) :
    Tag.Everywhere (fun x => x.isVisible d state = x.shown (Token.isVisible d state) t) [root] := by
  rw [Tag.everywhere_singleton]
  intro x hx
  have hread := Tag.everywhere_singleton.mp (readFrom_of_parseStrict hplain.unmarked h) x hx
  exact (isVisible_startToken hread (hnamed.names x hx) (hnamed.working x hx)).symm

/-- **The three lookups agree on the tags that exist.** If the tree has a tag at
a path, looking for the path in the text gives the range of that tag, and the
path at its start is the path itself. -/
theorem lookups_agree (hplain : Plain t) (h : parseStrict t = .ok root) (hnamed : root.WellNamed d)
    (hroot : root.isVisible d state = true) {rest : List Nat} (hindices : ∀ n ∈ rest, n < 2 ^ 63)
    (hitem : itemAt? d state root (0 :: rest) = some tag) :
    rangeAt d state (0 :: rest) t = tag.range ∧
      pathAt d state tag.head.start t = .ok (0 :: rest) := by
  have hfirst : ([root].filter (·.isVisible d state))[0]? = some root := by
    rw [List.filter_cons_of_pos hroot]
    rfl
  obtain ⟨trail, passed, hthrough, hpath, hall⟩ :=
    Trail.exists_trail_of_visibleDescendant? hfirst hitem
  have hshown_eq := everywhere_shown_eq state hplain h hnamed
  have hpath' : 0 :: rest = Trail.path (Tag.shown (Token.isVisible d state) t)
      (trail ++ [(passed, tag)]) := by
    rw [← hpath]
    exact Trail.path_congr hthrough hshown_eq
  have hshown : Trail.allShown (Token.isVisible d state) t (trail ++ [(passed, tag)]) = true := by
    rw [Trail.allShown_iff]
    intro x hx
    rw [← hshown_eq x (hthrough.mem_preorderAll x hx)]
    exact hall x hx
  have hmem : tag ∈ Tag.preorderAll [root] := by
    apply hthrough.mem_preorderAll tag
    simp [Trail.line]
  constructor
  · have hsmall : ∀ n ∈ 0 :: rest, n < 2 ^ 63 := by
      intro n hn
      rcases List.mem_cons.mp hn with rfl | hn
      · exact Nat.two_pow_pos 63
      · exact hindices n hn
    rw [rangeAt_of_trail hplain h hthrough hshown hpath' hsmall]
    exact tokenRange_of_parseStrict hplain h tag hmem
  · have hleafy := leafy_of_parseStrict hplain.unmarked h
    obtain ⟨after, hafter⟩ := Trail.exists_tokens_eq_of_stands hleafy hthrough Trail.Stands.start
    rw [← elements_of_parseStrict hplain h] at hafter
    have htoken : tag.startToken t ∈ (scan t).elements := by
      rw [hafter]
      exact List.mem_append_right _ List.mem_cons_self
    have hlt := Scan.start_lt_stop (Scan.mem_tokens_of_mem_elements htoken)
    have hle := Scan.stop_le_width (Scan.mem_tokens_of_mem_elements htoken)
    rw [Tag.startToken_start] at hlt
    have hinside : Selects t tag.head.start (Trail.tokensBefore t trail passed) (tag.startToken t)
        after := .inside (Nat.le_of_eq Tag.startToken_start) hlt
    rw [pathAt_of_selects hplain h (by omega) hthrough .start hafter hinside, Trail.pathIfShown,
      if_pos hshown, ← hpath']

instance (d : Dialect) (root : Tag) : Decidable (root.WellNamed d) :=
  decidable_of_iff
    ((∀ x ∈ root.preorder, isName x.name = true) ∧
      ∀ x ∈ root.preorder, prefixOf x.name = some d.workingPrefix → x.head.value? Word.includeIn = none ∧
        x.head.value? Word.excludeFrom = none ∧ '.' ∉ x.localName)
    ⟨fun ⟨h₁, h₂⟩ => ⟨h₁, h₂⟩, fun ⟨h₁, h₂⟩ => ⟨h₁, h₂⟩⟩

/-- A tag after siblings of which one is pinned to the state, one has the
working prefix and one is hidden. -/
theorem lookups_agree_of_hidden_sibling :
    let t := "<e:Skin><a.up/><w:b/><e:c excludeFrom='up'/><d><f/></d></e:Skin>".toList
    let up := some ['u', 'p']
    ∃ root tag, Plain t ∧ parseStrict t = .ok root ∧ root.WellNamed Dialect.standard ∧
      root.isVisible Dialect.standard up = true ∧ (∀ n ∈ [2, 0], n < 2 ^ 63) ∧
      itemAt? Dialect.standard up root [0, 2, 0] = some tag ∧
      rangeAt Dialect.standard up [0, 2, 0] t = tag.range ∧
      pathAt Dialect.standard up tag.head.start t = .ok [0, 2, 0] := by
  intro t up
  have hplain : Plain t := by decide +kernel
  have hany : ((parseStrict t).toOption.any fun root => decide (root.WellNamed Dialect.standard) &&
      root.isVisible Dialect.standard up && (itemAt? Dialect.standard up root [0, 2, 0]).isSome) =
        true := by
    decide +kernel
  obtain ⟨root, hroot, hproperties⟩ := exists_of_any_toOption hany
  simp only [Bool.and_eq_true, decide_eq_true_eq] at hproperties
  obtain ⟨⟨hnamed, hvisible⟩, hsome⟩ := hproperties
  obtain ⟨tag, htag⟩ := Option.isSome_iff_exists.mp hsome
  have hindices : ∀ n ∈ [2, 0], n < 2 ^ 63 := by decide
  exact ⟨root, tag, hplain, hroot, hnamed, hvisible, hindices, htag,
    lookups_agree hplain hroot hnamed hvisible hindices htag⟩

/-- Behind a document type declaration in lower case, whose end the reader and
the scan see at different places, the root is in the tree but not found in the
text. -/
theorem not_lookups_agree_of_lowercase_doctype :
    let t := "<!doctype x <<a></b>>><r/>".toList
    ∃ root, t.head? ≠ some Source.mark ∧ containsWord "<!DOCTYPE".toList t = false ∧
      NoEscapedQuote t ∧ parseStrict t = .ok root ∧ root.WellNamed Dialect.standard ∧
      root.isVisible Dialect.standard none = true ∧
      itemAt? Dialect.standard none root [0] = some root ∧
      ¬ (rangeAt Dialect.standard none [0] t = root.range ∧
        pathAt Dialect.standard none root.head.start t = .ok [0]) := by
  intro t
  have hany : ((parseStrict t).toOption.any fun root => decide (root.WellNamed Dialect.standard)) =
      true := by
    decide +kernel
  obtain ⟨root, hroot, hnamed⟩ := exists_of_any_toOption hany
  have hmissing : rangeAt Dialect.standard none [0] t = ElementRange.missing := by decide +kernel
  refine ⟨root, by decide +kernel, by decide +kernel, by decide +kernel, hroot,
    of_decide_eq_true hnamed, rfl, rfl, ?_⟩
  rintro ⟨hrange, -⟩
  rw [hmissing] at hrange
  cases hrange

end SkinMarkup
