import SkinMarkup.Proofs.Tag.Marks

/-!
# Trails

A trail leads down through a forest: at every depth it passes over some tags
and stops at the next one, whose children come at the depth below. The tags at
which it stops are a lineage (`exists_trail_of_lineage`,
`lineage_of_through`).

A tag at the end of a trail has its tokens at known places
(`exists_tokens_eq_of_stands`), and every token of a forest belongs to a tag at
the end of a trail (`exists_trail_of_tokens`).
-/

namespace SkinMarkup

namespace Tag

/-- The tags on the way from a tag down to one below it, both included. -/
inductive Lineage : Tag → List Tag → Tag → Prop where
  | self (tag : Tag) : Lineage tag [tag] tag
  | child {parent tag last : Tag} {line : List Tag} (hmem : tag ∈ parent.tags)
      (hline : Lineage tag line last) : Lineage parent (parent :: line) last

theorem preorder_eq (tag : Tag) : tag.preorder = tag :: preorderAll tag.tags := by
  cases tag
  rw [preorder]

theorem preorderAll_append (ts us : List Tag) :
    preorderAll (ts ++ us) = preorderAll ts ++ preorderAll us := by
  induction ts with
  | nil => rw [preorderAll, List.nil_append, List.nil_append]
  | cons tag ts ih => rw [List.cons_append, preorderAll, preorderAll, ih, List.append_assoc]

theorem mem_preorderAll_of_mem_preorder {tag x : Tag} {ts : List Tag} (htag : tag ∈ ts)
    (hx : x ∈ tag.preorder) : x ∈ preorderAll ts := by
  obtain ⟨before, after, rfl⟩ := List.append_of_mem htag
  rw [preorderAll_append, preorderAll]
  exact List.mem_append_right _ (List.mem_append_left _ hx)

theorem mem_preorder_self (tag : Tag) : tag ∈ tag.preorder := by
  rw [preorder_eq]
  exact List.mem_cons_self

theorem mem_preorderAll_of_mem {tag : Tag} {ts : List Tag} (htag : tag ∈ ts) :
    tag ∈ preorderAll ts :=
  mem_preorderAll_of_mem_preorder htag (mem_preorder_self tag)

theorem mem_preorderAll_of_mem_tags {tag x : Tag} {ts : List Tag} (htag : tag ∈ ts)
    (hx : x ∈ preorderAll tag.tags) : x ∈ preorderAll ts := by
  apply mem_preorderAll_of_mem_preorder htag
  rw [preorder_eq]
  exact List.mem_cons_of_mem _ hx

/-- A property of all tags in a forest. -/
def Everywhere (P : Tag → Prop) (ts : List Tag) : Prop :=
  ∀ x ∈ preorderAll ts, P x

@[simp]
theorem everywhere_nil (P : Tag → Prop) : Everywhere P [] := by
  rintro x hx
  rw [preorderAll] at hx
  cases hx

@[simp]
theorem everywhere_append {P : Tag → Prop} {ts us : List Tag} :
    Everywhere P (ts ++ us) ↔ Everywhere P ts ∧ Everywhere P us := by
  rw [Everywhere, preorderAll_append, List.forall_mem_append]
  rfl

@[simp]
theorem everywhere_cons {P : Tag → Prop} {tag : Tag} {ts : List Tag} :
    Everywhere P (tag :: ts) ↔ (P tag ∧ Everywhere P tag.tags) ∧ Everywhere P ts := by
  rw [Everywhere, preorderAll, preorder_eq, List.forall_mem_append, List.forall_mem_cons]
  rfl

theorem everywhere_singleton {P : Tag → Prop} {tag : Tag} :
    Everywhere P [tag] ↔ ∀ x ∈ tag.preorder, P x := by
  rw [Everywhere, preorderAll, preorderAll, List.append_nil]

/-- Empty elements have no children, anywhere in a forest. -/
def Leafy (ts : List Tag) : Prop :=
  Everywhere (fun x => x.head.selfClosing = true → x.tags = []) ts

theorem Leafy.tags {tag : Tag} {ts : List Tag} (h : Leafy ts) (htag : tag ∈ ts) :
    Leafy tag.tags :=
  fun x hx => h x (mem_preorderAll_of_mem_tags htag hx)

theorem Leafy.not_selfClosing {tag : Tag} {ts : List Tag} (h : Leafy ts) (htag : tag ∈ ts)
    (hne : tag.tags ≠ []) : tag.head.selfClosing = false := by
  rw [Bool.eq_false_iff]
  intro hself
  exact hne (h tag (mem_preorderAll_of_mem htag) hself)

/-- Every tag of a forest has its start token among the tokens. -/
theorem Leafy.startToken_mem_tokens {t : Text} {ts : List Tag} (h : Leafy ts) :
    ∀ x ∈ preorderAll ts, x.startToken t ∈ tokens t ts := by
  induction ts using forest_induction with
  | nil =>
    intro x hx
    rw [preorderAll] at hx
    cases hx
  | empty tag ts hself ih =>
    obtain ⟨⟨htags, -⟩, hts⟩ := everywhere_cons.mp h
    intro x hx
    rw [preorderAll, preorder_eq, htags hself, preorderAll] at hx
    rw [tokens_cons_of_selfClosing hself]
    rcases List.mem_cons.mp hx with rfl | hx
    · exact List.mem_cons_self
    · exact List.mem_cons_of_mem _ (ih hts x hx)
  | node tag ts hself ihtags ih =>
    obtain ⟨⟨-, htags⟩, hts⟩ := everywhere_cons.mp h
    intro x hx
    rw [preorderAll, preorder_eq, List.cons_append, List.mem_cons, List.mem_append] at hx
    rw [tokens_cons_of_not_selfClosing hself, List.mem_cons, List.mem_append, List.mem_cons]
    rcases hx with rfl | hx | hx
    · exact .inl rfl
    · exact .inr (.inl (ihtags htags x hx))
    · exact .inr (.inr (.inr (ih hts x hx)))

/-- Induction over forests by the children of their tags. -/
theorem children_induction {motive : List Tag → Prop}
    (step : ∀ ts : List Tag, (∀ tag ∈ ts, motive tag.tags) → motive ts) (ts : List Tag) :
    motive ts := by
  refine step ts fun tag htag => ?_
  have hmem := List.sizeOf_lt_of_mem htag
  have htags : sizeOf tag.tags < sizeOf tag := by
    cases tag
    simp only [Tag.mk.sizeOf_spec]
    omega
  exact children_induction step tag.tags
termination_by sizeOf ts

theorem split_of_append_eq {xs ys before after : List Token} {token : Token}
    (h : xs ++ ys = before ++ token :: after) :
    (∃ outer, xs = before ++ token :: outer) ∨
      ∃ inner, before = xs ++ inner ∧ ys = inner ++ token :: after := by
  rcases List.append_eq_append_iff.mp h with ⟨inner, hbefore, hys⟩ | ⟨outer, hxs, hafter⟩
  · exact Or.inr ⟨inner, hbefore, hys⟩
  · cases outer with
    | nil => exact Or.inr ⟨[], by rw [hxs]; simp, hafter.symm⟩
    | cons x outer =>
      obtain ⟨rfl, -⟩ := List.cons.inj hafter
      exact Or.inl ⟨outer, hxs⟩

/-- A token of a forest is a token of one of its tags. -/
theorem exists_tag_of_tokens {t : Text} {ts : List Tag} {before after : List Token} {token : Token}
    (h : tokens t ts = before ++ token :: after) :
    ∃ passed tag rest inner outer, ts = passed ++ tag :: rest ∧
      before = tokens t passed ++ inner ∧ tokens t [tag] = inner ++ token :: outer := by
  induction ts generalizing before with
  | nil => simp at h
  | cons tag ts ih =>
    rw [← List.singleton_append, tokens_append] at h
    rcases split_of_append_eq h with ⟨outer, htag⟩ | ⟨inner, hbefore, hts⟩
    · exact ⟨[], tag, ts, before, outer, rfl, by simp, htag⟩
    · obtain ⟨passed, x, rest, inner, outer, rfl, rfl, hx⟩ := ih hts
      refine ⟨tag :: passed, x, rest, inner, outer, rfl, ?_, hx⟩
      rw [hbefore, ← List.append_assoc, ← tokens_append, List.singleton_append]

end Tag

/-- At each depth, the tags that are passed over and the tag that is met. -/
abbrev Trail := List (List Tag × Tag)

namespace Trail

/-- Whether a trail leads through a forest. -/
def Through : List Tag → Trail → Prop
  | _, [] => True
  | ts, (before, tag) :: trail => (∃ after, ts = before ++ tag :: after) ∧ Through tag.tags trail

/-- The tags that a trail meets. -/
def line (trail : Trail) : List Tag :=
  trail.map Prod.snd

/-- The tokens that a trail passes, up to the start tag of its last tag. -/
def lead (t : Text) (trail : Trail) : List Token :=
  trail.flatMap fun step => Tag.tokens t step.1 ++ [step.2.startToken t]

/-- The tokens before the start tag of a tag that a trail meets next, after
passing over `passed`. -/
def tokensBefore (t : Text) (trail : Trail) (passed : List Tag) : List Token :=
  lead t trail ++ Tag.tokens t passed

/-- A token of the last tag of a trail, and what stands before it. -/
inductive Stands (t : Text) (trail : Trail) (passed : List Tag) (tag : Tag) :
    List Token → Token → Prop where
  | start : Stands t trail passed tag (tokensBefore t trail passed) (tag.startToken t)
  | stop (hself : tag.head.selfClosing = false) : Stands t trail passed tag
      (tokensBefore t trail passed ++ tag.startToken t :: Tag.tokens t tag.tags) (tag.endToken t)

variable {t : Text} {ts passed : List Tag} {tag : Tag} {trail : Trail}

theorem lead_append_singleton (trail : Trail) (passed : List Tag) (tag : Tag) :
    lead t (trail ++ [(passed, tag)]) = lead t trail ++ Tag.tokens t passed ++ [tag.startToken t] := by
  simp [lead]

theorem tokensBefore_nil (passed : List Tag) : tokensBefore t [] passed = Tag.tokens t passed := rfl

theorem tokensBefore_cons (first : List Tag) (met : Tag) (trail : Trail) (passed : List Tag) :
    tokensBefore t ((first, met) :: trail) passed =
      Tag.tokens t first ++ met.startToken t :: tokensBefore t trail passed := by
  simp [tokensBefore, lead]

theorem Through.mem (h : Through ts ((passed, tag) :: trail)) : tag ∈ ts := by
  obtain ⟨⟨after, rfl⟩, -⟩ := h
  exact List.mem_append_right _ List.mem_cons_self

/-- A trail that goes on has met a tag with an end tag. -/
theorem Through.not_selfClosing (hleafy : Tag.Leafy ts) (h : Through ts ((passed, tag) :: trail))
    (hne : trail ≠ []) : tag.head.selfClosing = false := by
  apply hleafy.not_selfClosing h.mem
  obtain ⟨step, trail, rfl⟩ := List.exists_cons_of_ne_nil hne
  exact List.ne_nil_of_mem h.2.mem

theorem Through.leafy (hleafy : Tag.Leafy ts) (h : Through ts ((passed, tag) :: trail)) :
    Tag.Leafy tag.tags :=
  hleafy.tags h.mem

theorem Through.not_selfClosing_of_mem (hleafy : Tag.Leafy ts) {last : List Tag × Tag}
    (h : Through ts (trail ++ [last])) : ∀ step ∈ trail, step.2.head.selfClosing = false := by
  induction trail generalizing ts with
  | nil => rintro step ⟨⟩
  | cons first trail ih =>
    intro step hstep
    have hne : trail ++ [last] ≠ [] := List.append_ne_nil_of_right_ne_nil _ (by simp)
    rcases List.mem_cons.mp hstep with rfl | hstep
    · exact h.not_selfClosing hleafy hne
    · exact ih (h.leafy hleafy) h.2 step hstep

theorem Through.mem_preorderAll (h : Through ts trail) :
    ∀ x ∈ line trail, x ∈ Tag.preorderAll ts := by
  induction trail generalizing ts with
  | nil => rintro x ⟨⟩
  | cons step trail ih =>
    obtain ⟨passed, tag⟩ := step
    intro x hx
    rcases List.mem_cons.mp hx with rfl | hx
    · exact Tag.mem_preorderAll_of_mem h.mem
    · exact Tag.mem_preorderAll_of_mem_tags h.mem (ih h.2 x hx)

/-! ## Lineages -/

theorem exists_trail_of_lineage {top last : Tag} {tags : List Tag} (h : Tag.Lineage top tags last) :
    top ∈ ts → ∃ trail passed, Through ts (trail ++ [(passed, last)]) ∧
      line (trail ++ [(passed, last)]) = tags := by
  induction h generalizing ts with
  | self tag =>
    intro hmem
    obtain ⟨passed, after, rfl⟩ := List.append_of_mem hmem
    exact ⟨[], passed, ⟨⟨after, rfl⟩, trivial⟩, rfl⟩
  | @child parent tag last tags hmem hline ih =>
    intro hparent
    obtain ⟨trail, passed, hthrough, hline⟩ := ih hmem
    obtain ⟨first, after, rfl⟩ := List.append_of_mem hparent
    refine ⟨(first, parent) :: trail, passed, ⟨⟨after, rfl⟩, hthrough⟩, ?_⟩
    rw [← hline]
    rfl

theorem lineage_of_through {first : List Tag × Tag}
    (h : Through ts ((first :: trail) ++ [(passed, tag)])) :
    Tag.Lineage first.2 (line ((first :: trail) ++ [(passed, tag)])) tag := by
  induction trail generalizing ts first with
  | nil => exact .child h.2.mem (.self tag)
  | cons step trail ih => exact .child h.2.mem (ih h.2)

theorem lineage_of_through_singleton {top : Tag} (h : Through [top] (trail ++ [(passed, tag)])) :
    top.Lineage (line (trail ++ [(passed, tag)])) tag := by
  cases trail with
  | nil =>
    obtain rfl := List.mem_singleton.mp h.mem
    exact .self tag
  | cons step trail =>
    obtain rfl := List.mem_singleton.mp h.mem
    exact lineage_of_through h

/-! ## Tokens -/

theorem exists_tokens_eq (hself : ∀ step ∈ trail, step.2.head.selfClosing = false)
    (h : Through ts (trail ++ [(passed, tag)])) :
    ∃ after, Tag.tokens t ts = tokensBefore t trail passed ++ (Tag.tokens t [tag] ++ after) := by
  induction trail generalizing ts with
  | nil =>
    obtain ⟨⟨after, rfl⟩, -⟩ := h
    refine ⟨Tag.tokens t after, ?_⟩
    rw [tokensBefore_nil, ← Tag.tokens_append, ← Tag.tokens_append, List.singleton_append]
  | cons step trail ih =>
    obtain ⟨first, met⟩ := step
    obtain ⟨⟨rest, rfl⟩, htrail⟩ := h
    obtain ⟨after, hafter⟩ := ih (fun step hstep => hself step (List.mem_cons_of_mem _ hstep)) htrail
    refine ⟨after ++ met.endToken t :: Tag.tokens t rest, ?_⟩
    rw [Tag.tokens_append, Tag.tokens_cons_of_not_selfClosing (hself _ List.mem_cons_self), hafter,
      tokensBefore_cons]
    simp

/-- **A tag at the end of a trail has its tokens in the forest.** -/
theorem exists_tokens_eq_of_stands {before : List Token} {token : Token} (hleafy : Tag.Leafy ts)
    (h : Through ts (trail ++ [(passed, tag)])) (hstands : Stands t trail passed tag before token) :
    ∃ after, Tag.tokens t ts = before ++ token :: after := by
  obtain ⟨after, hafter⟩ := exists_tokens_eq (t := t) (h.not_selfClosing_of_mem hleafy) h
  rw [hafter]
  cases hstands with
  | start =>
    cases hself : tag.head.selfClosing with
    | true => exact ⟨after, by rw [Tag.tokens_cons_of_selfClosing hself]; simp⟩
    | false =>
      rw [Tag.tokens_cons_of_not_selfClosing hself, List.cons_append]
      exact ⟨_, rfl⟩
  | stop hself => exact ⟨after, by rw [Tag.tokens_cons_of_not_selfClosing hself]; simp⟩

/-- **Every token stands at the end of a trail.** -/
theorem exists_trail_of_tokens (ts : List Tag) :
    ∀ {before after : List Token} {token : Token}, Tag.tokens t ts = before ++ token :: after →
      ∃ trail passed tag, Through ts (trail ++ [(passed, tag)]) ∧
        Stands t trail passed tag before token := by
  induction ts using Tag.children_induction with
  | step ts ih =>
    intro before after token h
    obtain ⟨passed, tag, rest, inner, outer, rfl, rfl, htag⟩ := Tag.exists_tag_of_tokens h
    have hend : Through (passed ++ tag :: rest) ([] ++ [(passed, tag)]) := ⟨⟨rest, rfl⟩, trivial⟩
    cases inner with
    | nil =>
      have hstart : token = tag.startToken t := by
        cases hself : tag.head.selfClosing with
        | true =>
          rw [Tag.tokens_cons_of_selfClosing hself] at htag
          exact (List.cons.inj htag).1.symm
        | false =>
          rw [Tag.tokens_cons_of_not_selfClosing hself] at htag
          exact (List.cons.inj htag).1.symm
      refine ⟨[], passed, tag, hend, ?_⟩
      rw [List.append_nil, hstart]
      exact .start
    | cons first inner =>
      have hself : tag.head.selfClosing = false := by
        rw [Bool.eq_false_iff]
        intro hself
        rw [Tag.tokens_cons_of_selfClosing hself, Tag.tokens_nil] at htag
        simp at htag
      rw [Tag.tokens_cons_of_not_selfClosing hself, Tag.tokens_nil] at htag
      obtain ⟨rfl, hinner⟩ := List.cons.inj htag
      -- Behind the start tag there are the children and then the end tag.
      rcases Tag.split_of_append_eq hinner with ⟨outer, hbelow⟩ | ⟨last, rfl, hlast⟩
      · obtain ⟨trail, below, x, hthrough, hstands⟩ := ih tag hend.mem hbelow
        refine ⟨(passed, tag) :: trail, below, x, ⟨⟨rest, rfl⟩, hthrough⟩, ?_⟩
        cases hstands with
        | start => rw [← tokensBefore_cons]; exact .start
        | stop hx =>
          rw [← List.cons_append, ← List.append_assoc, ← tokensBefore_cons]
          exact .stop hx
      · obtain ⟨rfl, rfl⟩ : last = [] ∧ token = tag.endToken t := by
          cases last with
          | nil => exact ⟨rfl, (List.cons.inj hlast).1.symm⟩
          | cons x last => simp at hlast
        refine ⟨[], passed, tag, hend, ?_⟩
        rw [List.append_nil]
        exact .stop hself

end Trail

end SkinMarkup
