import SkinMarkup.Path.Position
import SkinMarkup.Proofs.Tag.Marks

/-!
# Counting over whole tags

The tokens of whole tags leave a counter of open elements where it was. So
looking for a path passes over siblings in one step, forwards
(`seekRange_siblings`) and backwards (`countBack_siblings`), and counts those
that are shown.
-/

namespace SkinMarkup

variable {visible : Token → Bool} {t : Text}

/-- Whether the start tag of a tag is visible. -/
def Tag.shown (visible : Token → Bool) (t : Text) (tag : Tag) : Bool :=
  visible (tag.startToken t)

/-! ## One token forwards -/

section

variable {token : Token} {tokens : List Token} {index depth : Int} {rest : List Int}

/-- The first remaining index when a token is met: a hidden one among the
siblings takes back the count that it is about to get. -/
def metIndex (visible : Token → Bool) (token : Token) (depth index : Int) : Int :=
  if depth = 0 ∧ !visible token then index + 1 else index

theorem seekRange_cons (head : Option Span) :
    seekRange visible (index :: rest) depth head (token :: tokens) =
      match advance token.kind (metIndex visible token depth index :: rest) depth with
      | none => ElementRange.missing
      | some (remaining, depth) =>
        if remaining = [] then
          match head with
          | none =>
            if token.kind = .selfClosing then ⟨some token.span, some ⟨token.stop, token.stop⟩⟩
            else seekRange visible remaining depth (some token.span) tokens
          | some head =>
            if depth = -1 then ⟨some head, some token.span⟩
            else seekRange visible remaining depth (some head) tokens
        else
          seekRange visible remaining depth head tokens := by
  have hmet : (if index :: rest ≠ [] ∧ depth = 0 ∧ (!visible token) = true then
      adjustFirst 1 (index :: rest) else index :: rest) =
        metIndex visible token depth index :: rest := by
    rw [metIndex]
    by_cases h : depth = 0 ∧ (!visible token) = true
    · rw [if_pos ⟨List.cons_ne_nil _ _, h⟩, if_pos h, adjustFirst]
    · rw [if_neg fun hc => h hc.2, if_neg h]
  have hstep := seekRange.eq_2 visible (index :: rest) depth head token tokens
  rw [hmet] at hstep
  exact hstep

/-- An empty element below the siblings does not count. -/
theorem seekRange_selfClosing_below (hkind : token.kind = .selfClosing) (hdepth : depth ≠ 0) :
    seekRange visible (index :: rest) depth none (token :: tokens) =
      seekRange visible (index :: rest) depth none tokens := by
  have hmet : metIndex visible token depth index = index := if_neg fun h => hdepth h.1
  rw [seekRange_cons, hmet, hkind]
  simp [advance, hdepth]

/-- An empty element among the siblings is passed over. -/
theorem seekRange_selfClosing_pass (hkind : token.kind = .selfClosing)
    (hindex : metIndex visible token 0 index ≠ 0) :
    seekRange visible (index :: rest) 0 none (token :: tokens) =
      seekRange visible ((metIndex visible token 0 index - 1) :: rest) 0 none tokens := by
  rw [seekRange_cons, hkind]
  simp [advance, hindex]

theorem seekRange_selfClosing_found (hkind : token.kind = .selfClosing)
    (hindex : metIndex visible token 0 index = 0) :
    seekRange visible [index] 0 none (token :: tokens) =
      ⟨some token.span, some ⟨token.stop, token.stop⟩⟩ := by
  rw [seekRange_cons, hkind, hindex]
  rfl

/-- A path does not go on below an empty element. -/
theorem seekRange_selfClosing_missing (hkind : token.kind = .selfClosing)
    (hindex : metIndex visible token 0 index = 0) (hrest : rest ≠ []) :
    seekRange visible (index :: rest) 0 none (token :: tokens) = ElementRange.missing := by
  rw [seekRange_cons, hkind, hindex]
  simp [advance, hrest]

/-- An element that is passed over is entered, since its tokens follow. -/
theorem seekRange_opening_pass (hkind : token.kind = .opening)
    (hindex : metIndex visible token depth index ≠ 0) :
    seekRange visible (index :: rest) depth none (token :: tokens) =
      seekRange visible (metIndex visible token depth index :: rest) (depth + 1) none tokens := by
  rw [seekRange_cons, hkind]
  simp [advance, hindex]

theorem seekRange_opening_found (hkind : token.kind = .opening)
    (hindex : metIndex visible token depth index = 0) :
    seekRange visible [index] depth none (token :: tokens) =
      seekRange visible [] 0 (some token.span) tokens := by
  rw [seekRange_cons, hkind, hindex]
  rfl

theorem seekRange_opening_enter (hkind : token.kind = .opening)
    (hindex : metIndex visible token depth index = 0) (hrest : rest ≠ []) :
    seekRange visible (index :: rest) depth none (token :: tokens) =
      seekRange visible rest 0 none tokens := by
  rw [seekRange_cons, hkind, hindex]
  simp [advance, hrest]

/-- A sibling counts when it is closed. -/
theorem seekRange_closing (hkind : token.kind = .closing)
    (hmet : metIndex visible token depth index = index) :
    seekRange visible (index :: rest) depth none (token :: tokens) =
      seekRange visible ((if depth = 1 then index - 1 else index) :: rest) (depth - 1) none tokens := by
  rw [seekRange_cons, hkind, hmet]
  by_cases h : depth = 1
  · subst h
    rfl
  · have hne : depth - 1 ≠ 0 := by omega
    simp [advance, hne, h]

end

/-! ## Siblings forwards -/

theorem metIndex_of_ne_zero {token : Token} {depth : Int} (h : depth ≠ 0) (index : Int) :
    metIndex visible token depth index = index :=
  if_neg fun hc => h hc.1

theorem metIndex_of_visible {token : Token} (h : visible token = true) (depth index : Int) :
    metIndex visible token depth index = index :=
  if_neg fun hc => by simp [h] at hc

theorem metIndex_of_hidden {token : Token} (h : visible token = false) (index : Int) :
    metIndex visible token 0 index = index + 1 :=
  if_pos ⟨rfl, by simp [h]⟩

/-- Among the siblings a shown tag keeps the index and a hidden one raises it. -/
theorem metIndex_startToken (tag : Tag) (index : Int) :
    metIndex visible (tag.startToken t) 0 index =
      index + 1 - ((if tag.shown visible t then 1 else 0 : Nat) : Int) := by
  cases hshown : tag.shown visible t with
  | true =>
    rw [metIndex_of_visible hshown, if_pos rfl]
    omega
  | false =>
    rw [metIndex_of_hidden hshown, if_neg Bool.false_ne_true]
    omega

/-- Below the siblings nothing is counted. -/
theorem seekRange_below {index : Int} {rest : List Int} (hindex : 1 ≤ index) (ts : List Tag) :
    ∀ {depth : Int} {more : List Token}, 1 ≤ depth →
      seekRange visible (index :: rest) depth none (Tag.tokens t ts ++ more) =
        seekRange visible (index :: rest) depth none more := by
  induction ts using Tag.forest_induction with
  | nil =>
    intro depth more _
    rw [Tag.tokens_nil, List.nil_append]
  | empty tag ts hself ih =>
    intro depth more hdepth
    have hkind := Tag.startToken_kind_of_selfClosing (t := t) hself
    rw [Tag.tokens_cons_of_selfClosing hself, List.cons_append,
      seekRange_selfClosing_below hkind (by omega), ih hdepth]
  | node tag ts hself ihtags ih =>
    intro depth more hdepth
    have hkind := Tag.startToken_kind_of_not_selfClosing (t := t) hself
    have hmet : metIndex visible (tag.startToken t) depth index = index :=
      metIndex_of_ne_zero (by omega) index
    have hend : metIndex visible (tag.endToken t) (depth + 1) index = index :=
      metIndex_of_ne_zero (by omega) index
    rw [Tag.tokens_cons_of_not_selfClosing hself, List.cons_append, List.append_assoc,
      seekRange_opening_pass hkind (by omega), hmet, ihtags (by omega), List.cons_append,
      seekRange_closing rfl hend, if_neg (by omega), Int.add_sub_cancel, ih hdepth]

/-- **Siblings are passed over in one step,** and those that are shown count. -/
theorem seekRange_siblings {rest : List Int} (ts : List Tag) :
    ∀ {index : Int} {more : List Token}, (ts.countP (Tag.shown visible t) : Int) ≤ index →
      seekRange visible (index :: rest) 0 none (Tag.tokens t ts ++ more) =
        seekRange visible ((index - ts.countP (Tag.shown visible t)) :: rest) 0 none more := by
  induction ts with
  | nil =>
    intro index more _
    simp
  | cons tag ts ih =>
    intro index more hcount
    have hmet : metIndex visible (tag.startToken t) 0 index = _ := metIndex_startToken tag index
    rw [List.countP_cons] at hcount ⊢
    generalize (if tag.shown visible t = true then 1 else 0) = own at hcount hmet ⊢
    -- The tag has used up its own count when its siblings are met.
    have hsum : metIndex visible (tag.startToken t) 0 index - 1 - ts.countP (Tag.shown visible t) =
        index - ↑(ts.countP (Tag.shown visible t) + own) := by omega
    cases hself : tag.head.selfClosing with
    | true =>
      have hkind := Tag.startToken_kind_of_selfClosing (t := t) hself
      rw [Tag.tokens_cons_of_selfClosing hself, List.cons_append,
        seekRange_selfClosing_pass hkind (by omega), ih (by omega), hsum]
    | false =>
      have hkind := Tag.startToken_kind_of_not_selfClosing (t := t) hself
      have hend : metIndex visible (tag.endToken t) 1 (metIndex visible (tag.startToken t) 0 index) =
          metIndex visible (tag.startToken t) 0 index := metIndex_of_ne_zero (by omega) _
      rw [Tag.tokens_cons_of_not_selfClosing hself, List.cons_append, List.append_assoc,
        seekRange_opening_pass hkind (by omega), Int.zero_add,
        seekRange_below (by omega) tag.tags (Int.le_refl 1), List.cons_append,
        seekRange_closing rfl hend, if_pos rfl, Int.sub_self, ih (by omega), hsum]

/-- Between the start tag that was found and its end tag nothing ends the
search. -/
theorem seekRange_content {head : Span} (ts : List Tag) :
    ∀ {depth : Int} {more : List Token}, 0 ≤ depth →
      seekRange visible [] depth (some head) (Tag.tokens t ts ++ more) =
        seekRange visible [] depth (some head) more := by
  induction ts using Tag.forest_induction with
  | nil =>
    intro depth more _
    rw [Tag.tokens_nil, List.nil_append]
  | empty tag ts hself ih =>
    intro depth more hdepth
    have hkind := Tag.startToken_kind_of_selfClosing (t := t) hself
    have hne : depth ≠ -1 := by omega
    rw [Tag.tokens_cons_of_selfClosing hself, List.cons_append, seekRange]
    simp [advance, hkind, hne, ih hdepth]
  | node tag ts hself ihtags ih =>
    intro depth more hdepth
    have hkind := Tag.startToken_kind_of_not_selfClosing (t := t) hself
    have hopen : depth + 1 ≠ -1 := by omega
    have hclose : depth ≠ -1 := by omega
    rw [Tag.tokens_cons_of_not_selfClosing hself, List.cons_append, List.append_assoc, seekRange]
    simp only [advance, hkind, ne_eq, not_true, false_and, if_false, if_true, hopen]
    rw [ihtags (by omega), List.cons_append, seekRange]
    simp only [advance, Tag.endToken_kind, ne_eq, not_true, false_and, if_false, Int.add_sub_cancel,
      adjustFirst, ite_self, hclose, ih hdepth]

theorem seekRange_found {head : Span} (tag : Tag) (more : List Token) :
    seekRange visible [] 0 (some head) (Tag.tokens t tag.tags ++ tag.endToken t :: more) =
      ⟨some head, some (tag.endToken t).span⟩ := by
  rw [seekRange_content tag.tags (Int.le_refl 0), seekRange]
  rfl

/-! ## Siblings backwards -/

theorem reverse_tokens_of_selfClosing {tag : Tag} (ts : List Tag) (more : List Token)
    (h : tag.head.selfClosing = true) :
    (Tag.tokens t (tag :: ts)).reverse ++ more =
      (Tag.tokens t ts).reverse ++ tag.startToken t :: more := by
  rw [Tag.tokens_cons_of_selfClosing h]
  simp

theorem reverse_tokens_of_not_selfClosing {tag : Tag} (ts : List Tag) (more : List Token)
    (h : tag.head.selfClosing = false) :
    (Tag.tokens t (tag :: ts)).reverse ++ more =
      (Tag.tokens t ts).reverse ++
        tag.endToken t :: ((Tag.tokens t tag.tags).reverse ++ tag.startToken t :: more) := by
  rw [Tag.tokens_cons_of_not_selfClosing h]
  simp

/-- On the way back nothing is counted below the siblings. -/
theorem countBack_below {index : Int} {rest : List Int} (ts : List Tag) :
    ∀ {depth : Int} {more : List Token}, depth ≤ -1 →
      countBack visible index rest depth ((Tag.tokens t ts).reverse ++ more) =
        countBack visible index rest depth more := by
  induction ts using Tag.forest_induction with
  | nil =>
    intro depth more _
    rw [Tag.tokens_nil, List.reverse_nil, List.nil_append]
  | empty tag ts hself ih =>
    intro depth more hdepth
    have hkind := Tag.startToken_kind_of_selfClosing (t := t) hself
    have hne : depth ≠ 0 := by omega
    rw [reverse_tokens_of_selfClosing ts more hself, ih hdepth, countBack]
    simp only [hkind, hne, false_and, if_false]
  | node tag ts hself ihtags ih =>
    intro depth more hdepth
    have hkind := Tag.startToken_kind_of_not_selfClosing (t := t) hself
    have hne : depth - 1 ≠ 0 := by omega
    have hbelow : depth - 1 ≠ -1 := by omega
    rw [reverse_tokens_of_not_selfClosing ts more hself, ih hdepth, countBack]
    simp only [Tag.endToken_kind]
    rw [ihtags (by omega), countBack]
    simp only [hkind, hne, hbelow, false_and, if_false, Int.sub_add_cancel]

/-- **Siblings are counted back in one step.** -/
theorem countBack_siblings {rest : List Int} (ts : List Tag) :
    ∀ {index : Int} {more : List Token},
      countBack visible index rest 0 ((Tag.tokens t ts).reverse ++ more) =
        countBack visible (index + ts.countP (Tag.shown visible t)) rest 0 more := by
  induction ts with
  | nil =>
    intro index more
    simp
  | cons tag ts ih =>
    intro index more
    rw [List.countP_cons]
    cases hself : tag.head.selfClosing with
    | true =>
      have hkind := Tag.startToken_kind_of_selfClosing (t := t) hself
      rw [reverse_tokens_of_selfClosing ts more hself, ih, countBack]
      cases hshown : tag.shown visible t with
      | true =>
        have hvisible : visible (tag.startToken t) = true := hshown
        simp [hkind, hvisible, Int.add_assoc]
      | false =>
        have hvisible : visible (tag.startToken t) = false := hshown
        simp [hkind, hvisible]
    | false =>
      have hkind := Tag.startToken_kind_of_not_selfClosing (t := t) hself
      -- The end tag leads below the siblings, and only the start tag counts.
      rw [reverse_tokens_of_not_selfClosing ts more hself, ih, countBack]
      simp only [Tag.endToken_kind]
      rw [countBack_below tag.tags (by omega), countBack]
      cases hshown : tag.shown visible t with
      | true =>
        have hvisible : visible (tag.startToken t) = true := hshown
        simp [hkind, hvisible, Int.add_assoc]
      | false =>
        have hvisible : visible (tag.startToken t) = false := hshown
        simp [hkind, hvisible]

/-- Whole tags hold no start tag for an end tag behind them. -/
theorem matchingStart?_siblings (ts : List Tag) :
    ∀ {depth : Nat} {more : List Token}, 1 ≤ depth →
      matchingStart? depth ((Tag.tokens t ts).reverse ++ more) = matchingStart? depth more := by
  induction ts using Tag.forest_induction with
  | nil =>
    intro depth more _
    rw [Tag.tokens_nil, List.reverse_nil, List.nil_append]
  | empty tag ts hself ih =>
    intro depth more hdepth
    have hkind := Tag.startToken_kind_of_selfClosing (t := t) hself
    rw [reverse_tokens_of_selfClosing ts more hself, ih hdepth, matchingStart?]
    simp only [hkind]
  | node tag ts hself ihtags ih =>
    intro depth more hdepth
    have hkind := Tag.startToken_kind_of_not_selfClosing (t := t) hself
    have hne : depth + 1 ≠ 1 := by omega
    rw [reverse_tokens_of_not_selfClosing ts more hself, ih hdepth, matchingStart?]
    simp only [Tag.endToken_kind]
    rw [ihtags (by omega), matchingStart?]
    simp only [hkind, hne, if_false, Nat.add_sub_cancel]

end SkinMarkup
