import Mathlib.Data.List.Basic
import SkinMarkup.Proofs.Path.Selection

/-!
# Paths lead back to where they come from

The path at an offset of a document is that of the element which the offset
selects, and looking for this path gives the tags of the same element:
`pathInverse_of_parseStrict`.
-/

namespace SkinMarkup

/-- The tokens of an element: its start tag, and its end tag if it has one. -/
def Tag.HasToken (t : Text) (tag : Tag) (token : Token) : Prop :=
  token = tag.startToken t ∨ tag.head.selfClosing = false ∧ token = tag.endToken t

/-- An offset selects the element that the token at it belongs to. The element
comes with its ancestors, which `line` lists from the root down to itself. -/
def SelectsElement (t : Text) (offset : Nat) (root : Tag) (line : List Tag) (e : Tag) : Prop :=
  root.Lineage line e ∧ ∃ before token after, (scan t).elements = before ++ token :: after ∧
    Selects t offset before token after ∧ e.HasToken t token

/-- The law of paths at one offset. -/
structure PathInverse (d : Dialect) (state : Option Text) (offset : Nat) (t : Text) (root : Tag) :
    Prop where
  /-- The offset selects an element. -/
  selected : ∃ line e, SelectsElement t offset root line e
  /-- That element has a path exactly when it and its ancestors are visible,
  and the path leads to its tags. -/
  inverse : ∀ {line : List Tag} {e : Tag}, SelectsElement t offset root line e →
    ∃ path, pathAt d state offset t = .ok path ∧
      (path ≠ [] ↔ ∀ a ∈ line, (a.startToken t).isVisible d state = true) ∧
      (path ≠ [] → rangeAt d state path t = e.tokenRange t ∧ e.tokenRange t = e.range ∧
        ∀ token, e.HasToken t token → token.span.contains offset = true →
          ∃ span, (rangeAt d state path t).span? = some span ∧ span.contains offset = true)

variable {d : Dialect} {state : Option Text} {t : Text} {root tag : Tag} {offset : Nat}
  {trail : Trail} {passed : List Tag}

/-! ## Trails of documents -/

theorem Tag.HasToken.stands {token : Token} (h : tag.HasToken t token) (trail : Trail)
    (passed : List Tag) : ∃ before, Trail.Stands t trail passed tag before token := by
  rcases h with rfl | ⟨hself, rfl⟩
  · exact ⟨_, .start⟩
  · exact ⟨_, .stop hself⟩

theorem Trail.Stands.hasToken {token : Token} {before : List Token}
    (h : Stands t trail passed tag before token) : tag.HasToken t token := by
  cases h with
  | start => exact Or.inl rfl
  | stop hself => exact Or.inr ⟨hself, rfl⟩

theorem Tag.length_le_length_tokens (ts : List Tag) : ts.length ≤ (tokens t ts).length := by
  induction ts with
  | nil => simp
  | cons tag ts ih =>
    cases hself : tag.head.selfClosing with
    | true =>
      rw [tokens_cons_of_selfClosing hself, List.length_cons, List.length_cons]
      omega
    | false =>
      rw [tokens_cons_of_not_selfClosing hself, List.length_cons, List.length_cons,
        List.length_append, List.length_cons]
      omega

theorem Trail.le_length_of_mem_path {shown : Tag → Bool} {ts : List Tag} (hleafy : Tag.Leafy ts)
    (h : Through ts trail) : ∀ n ∈ path shown trail, n ≤ (Tag.tokens t ts).length := by
  induction trail generalizing ts with
  | nil => rintro n ⟨⟩
  | cons step trail ih =>
    obtain ⟨first, met⟩ := step
    have hbelow := h.leafy hleafy
    have hself := h.not_selfClosing hleafy
    obtain ⟨⟨after, rfl⟩, htrail⟩ := h
    intro n hn
    rcases List.mem_cons.mp hn with rfl | hn
    · have hcount : first.countP shown ≤ first.length := List.countP_le_length
      have hlength := Tag.length_le_length_tokens (t := t) first
      show first.countP shown ≤ _
      rw [Tag.tokens_append, List.length_append]
      omega
    · have hne : trail ≠ [] := by
        rintro rfl
        cases hn
      have hn := ih hbelow htrail n hn
      rw [Tag.tokens_append, Tag.tokens_cons_of_not_selfClosing (hself hne), List.length_append,
        List.length_cons, List.length_append]
      omega

theorem startToken_stop_le (hplain : Plain t) (h : parseStrict t = .ok root)
    (hthrough : Trail.Through [root] (trail ++ [(passed, tag)]))
    (hself : tag.head.selfClosing = false) : (tag.startToken t).stop ≤ (tag.endToken t).start := by
  have hleafy := leafy_of_parseStrict hplain.unmarked h
  obtain ⟨after, hafter⟩ :=
    Trail.exists_tokens_eq_of_stands hleafy hthrough (Trail.Stands.stop hself)
  have hpair := Scan.pairwise_elements t
  rw [elements_of_parseStrict hplain h, hafter] at hpair
  refine (List.pairwise_append.mp hpair).2.2 _ ?_ _ List.mem_cons_self
  exact List.mem_append_right _ List.mem_cons_self

theorem contains_of_hasToken (hplain : Plain t) (h : parseStrict t = .ok root)
    (hthrough : Trail.Through [root] (trail ++ [(passed, tag)])) {token : Token}
    (htoken : tag.HasToken t token) (hcontains : token.span.contains offset = true) :
    ∃ span, (tag.tokenRange t).span? = some span ∧ span.contains offset = true := by
  cases hself : tag.head.selfClosing with
  | true =>
    rw [Tag.tokenRange, if_pos hself]
    rcases htoken with rfl | ⟨hfalse, -⟩
    · exact ⟨_, rfl, hcontains⟩
    · cases hself.symm.trans hfalse
  | false =>
    rw [Tag.tokenRange, hself, if_neg Bool.false_ne_true]
    have hle := startToken_stop_le hplain h hthrough hself
    have hstart := (tag.startToken t).start_le_stop
    have hstop := (tag.endToken t).start_le_stop
    refine ⟨_, rfl, Span.contains_iff.mpr ?_⟩
    obtain ⟨hlow, hhigh⟩ := Span.contains_iff.mp hcontains
    dsimp only [Token.span] at hlow hhigh ⊢
    rcases htoken with rfl | ⟨-, rfl⟩
    · omega
    · omega

/-! ## The law -/

/-- Where an element is selected, the trail to it ends at the selected token. -/
theorem SelectsElement.exists_trail {line : List Tag} (hplain : Plain t)
    (h : parseStrict t = .ok root) (hselects : SelectsElement t offset root line tag) :
    ∃ trail passed before token after, Trail.Through [root] (trail ++ [(passed, tag)]) ∧
      Trail.line (trail ++ [(passed, tag)]) = line ∧ Trail.Stands t trail passed tag before token ∧
      (scan t).elements = before ++ token :: after ∧ Selects t offset before token after := by
  obtain ⟨hlineage, before, token, after, helements, hselects, htoken⟩ := hselects
  have hleafy := leafy_of_parseStrict hplain.unmarked h
  obtain ⟨trail, passed, hthrough, hline⟩ :=
    Trail.exists_trail_of_lineage hlineage List.mem_cons_self
  obtain ⟨before', hstands⟩ := htoken.stands trail passed
  obtain ⟨after', hafter⟩ := Trail.exists_tokens_eq_of_stands hleafy hthrough hstands
  -- No token stands twice in a scan, so both splits are the same.
  have hnodup := Scan.nodup_elements t
  rw [helements] at hnodup
  rw [← elements_of_parseStrict hplain h, helements] at hafter
  obtain ⟨-, htail, hdisjoint⟩ := List.nodup_append.mp hnodup
  have hsplit := (List.append_cons_inj_of_notMem
    (fun hmem => hdisjoint token hmem token List.mem_cons_self rfl)
    (List.nodup_cons.mp htail).1).mp hafter
  obtain ⟨rfl, -, rfl⟩ := hsplit
  exact ⟨trail, passed, before, token, after, hthrough, hline, hstands, helements, hselects⟩

/-- **Paths lead back to where they come from.** In a document without a byte
order mark, a document type declaration or an escaped quote, every offset
selects an element; it has a path exactly when it and its ancestors are
visible, and looking for that path gives its own tags. -/
theorem pathInverse_of_parseStrict (hplain : Plain t) (h : parseStrict t = .ok root)
    (hwidth : width t < 2 ^ 63) (hoffset : offset ≤ width t) :
    PathInverse d state offset t root := by
  have helements := elements_of_parseStrict hplain h
  have hleafy := leafy_of_parseStrict hplain.unmarked h
  constructor
  · have hne : (scan t).elements ≠ [] := by
      rw [helements]
      exact List.ne_nil_of_length_pos (Tag.length_le_length_tokens [root])
    obtain ⟨before, token, after, hsplit, hselects⟩ := exists_selects hne
    obtain ⟨trail, passed, tag, hthrough, hstands⟩ :=
      Trail.exists_trail_of_tokens [root] (helements.symm.trans hsplit)
    exact ⟨_, tag, Trail.lineage_of_through_singleton hthrough, before, token, after, hsplit, hselects,
      hstands.hasToken⟩
  · intro line e hselected
    obtain ⟨trail, passed, before, token, after, hthrough, rfl, hstands, hsplit, hselects⟩ :=
      hselected.exists_trail hplain h
    have hne : trail ++ [(passed, e)] ≠ [] := by simp
    refine ⟨_, pathAt_of_selects hplain h hoffset hthrough hstands hsplit hselects,
      Trail.pathIfShown_ne_nil_iff hne, ?_⟩
    intro hpath
    have hshown := Trail.allShown_iff.mpr ((Trail.pathIfShown_ne_nil_iff hne).mp hpath)
    have hpath_eq : Trail.pathIfShown (Token.isVisible d state) t (trail ++ [(passed, e)]) =
        Trail.path (Tag.shown (Token.isVisible d state) t) (trail ++ [(passed, e)]) := by
      rw [Trail.pathIfShown, if_pos hshown]
    have hindices : ∀ n ∈ Trail.pathIfShown (Token.isVisible d state) t (trail ++ [(passed, e)]),
        n < 2 ^ 63 := by
      rw [hpath_eq]
      intro n hn
      have hle := Trail.le_length_of_mem_path (t := t) hleafy hthrough n hn
      have hlength := Scan.length_elements_le t
      rw [helements] at hlength
      omega
    have hrange := rangeAt_of_trail hplain h hthrough hshown hpath_eq hindices
    refine ⟨hrange, ?_, ?_⟩
    · refine tokenRange_of_parseStrict hplain h e (hthrough.mem_preorderAll e ?_)
      simp [Trail.line]
    · intro token' htoken' hcontains
      rw [hrange]
      exact contains_of_hasToken hplain h hthrough htoken' hcontains

/-- Inside a tag after a sibling that is hidden in the state. -/
theorem pathInverse_of_hidden_sibling :
    let t := "<Skin>\n<a excludeFrom='x'/><b><c/></b></Skin>".toList
    ∃ root, Plain t ∧ parseStrict t = .ok root ∧ width t < 2 ^ 63 ∧ 31 ≤ width t ∧
      pathAt Dialect.standard (some ['x']) 31 t = .ok [0, 0, 0] ∧
      PathInverse Dialect.standard (some ['x']) 31 t root := by
  intro t
  have hplain : Plain t := by decide +kernel
  have hany : (parseStrict t).toOption.any (fun _ => true) = true := by decide +kernel
  obtain ⟨root, hroot, -⟩ := exists_of_any_toOption hany
  have hwidth : width t < 2 ^ 63 := by decide +kernel
  have hoffset : 31 ≤ width t := by decide +kernel
  exact ⟨root, hplain, hroot, hwidth, hoffset, by decide +kernel,
    pathInverse_of_parseStrict hplain hroot hwidth hoffset⟩

/-- Behind a document type declaration in lower case, whose end the reader and
the scan see at different places, the root has no path. -/
theorem not_pathInverse_of_lowercase_doctype :
    let t := "<!doctype x <<a></b>>><r/>".toList
    ∃ root, t.head? ≠ some Source.mark ∧ containsWord "<!DOCTYPE".toList t = false ∧
      NoEscapedQuote t ∧ parseStrict t = .ok root ∧ root.span = ⟨22, 26⟩ ∧
      pathAt Dialect.standard none 22 t = .ok [] ∧
      ¬ PathInverse Dialect.standard none 22 t root := by
  intro t
  have hany : ((parseStrict t).toOption.any fun root => root.span = ⟨22, 26⟩) = true := by
    decide +kernel
  obtain ⟨root, hroot, hspan⟩ := exists_of_any_toOption hany
  have hnil : (scan t).elements = [] := by decide +kernel
  refine ⟨root, by decide +kernel, by decide +kernel, by decide +kernel, hroot,
    of_decide_eq_true hspan, by decide +kernel, ?_⟩
  intro h
  obtain ⟨line, e, -, before, token, after, hsplit, -⟩ := h.selected
  rw [hnil] at hsplit
  simp at hsplit

end SkinMarkup
