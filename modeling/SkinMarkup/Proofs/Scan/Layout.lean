import SkinMarkup.Scan.Basic

/-!
# Where the tokens of a scan stand

The tokens of a scan stand in the text at their own offsets, one after the
other and without overlap, and every token starts with `<`.

- `slice?_of_mem_tokens`: between its offsets the text has the token's text.
- `pairwise_tokens`: a token ends before the next one starts.
- `stop_le_width`: no token reaches past the text.
-/

namespace SkinMarkup

namespace Segment

/-- Consecutive segments, the first of which starts at byte `offset`. -/
def Consecutive (offset : Nat) : List Segment → Prop
  | [] => True
  | s :: rest => s.token.start = offset + width s.gap ∧ Consecutive s.token.stop rest

theorem Consecutive.start_eq {offset : Nat} {before after : List Segment} {s : Segment}
    (h : Consecutive offset (before ++ s :: after)) :
    s.token.start = offset + width (before.flatMap Segment.source ++ s.gap) := by
  induction before generalizing offset with
  | nil => simpa using h.1
  | cons b before ih =>
    rw [ih h.2, Token.stop, h.1]
    simp only [List.flatMap_cons, Segment.source, width_append]
    omega

theorem Consecutive.le_start {offset : Nat} {segments : List Segment}
    (h : Consecutive offset segments) {s : Segment} (hs : s ∈ segments) :
    offset ≤ s.token.start := by
  obtain ⟨before, after, rfl⟩ := List.append_of_mem hs
  rw [h.start_eq]
  omega

theorem Consecutive.pairwise {offset : Nat} {segments : List Segment}
    (h : Consecutive offset segments) :
    segments.Pairwise fun a b => a.token.stop ≤ b.token.start := by
  induction segments generalizing offset with
  | nil => exact List.Pairwise.nil
  | cons s rest ih => exact List.Pairwise.cons (fun b hb => h.2.le_start hb) (ih h.2)

end Segment

/-- Tokens that follow one another between two offsets are no more than the
bytes there. -/
theorem Token.length_le_of_pairwise {offset bound : Nat} {tokens : List Token}
    (hpair : tokens.Pairwise fun a b => a.stop ≤ b.start)
    (hmem : ∀ a ∈ tokens, offset ≤ a.start ∧ a.start < a.stop ∧ a.stop ≤ bound)
    (hoffset : offset ≤ bound) : offset + tokens.length ≤ bound := by
  induction tokens generalizing offset with
  | nil => exact hoffset
  | cons a tokens ih =>
    obtain ⟨hafter, hpair⟩ := List.pairwise_cons.mp hpair
    obtain ⟨h₁, h₂, h₃⟩ := hmem a List.mem_cons_self
    have := ih hpair (fun b hb => ⟨hafter b hb, (hmem b (List.mem_cons_of_mem a hb)).2⟩) h₃
    rw [List.length_cons]
    omega

namespace Scan

/-! ## One token -/

theorem cutEnclosed_text {kind kind' : TokenKind} {opener closer t text rest : Text}
    (h : cutEnclosed kind opener closer t = some (kind', text, rest)) :
    ∃ body, text = opener ++ body := by
  simp only [cutEnclosed, Option.map_eq_some_iff, Prod.mk.injEq, Prod.exists] at h
  obtain ⟨content, after, -, -, rfl, -⟩ := h
  exact ⟨content ++ closer, by rw [List.append_assoc]⟩

theorem cutToken_text {kind : TokenKind} {t text rest : Text}
    (h : cutToken t = some (kind, text, rest)) : ∃ body, text = '<' :: body := by
  unfold cutToken at h
  split at h
  · obtain ⟨body, rfl⟩ := cutEnclosed_text h
    exact ⟨_, rfl⟩
  · split at h
    · obtain ⟨body, rfl⟩ := cutEnclosed_text h
      exact ⟨_, rfl⟩
    · split at h
      · obtain ⟨body, rfl⟩ := cutEnclosed_text h
        exact ⟨_, rfl⟩
      · split at h
        · obtain ⟨body, rfl⟩ := cutEnclosed_text h
          exact ⟨_, rfl⟩
        · simp only [cutTagToken, Option.map_eq_some_iff, Prod.mk.injEq, Prod.exists] at h
          obtain ⟨content, after, -, -, rfl, -⟩ := h
          exact ⟨_, rfl⟩

/-! ## The whole text -/

theorem consecutive_scanFrom (offset depth : Nat) (t : Text) :
    Segment.Consecutive offset (scanFrom offset depth t).segments := by
  fun_induction scanFrom offset depth t with
  | case1 => trivial
  | case2 => trivial
  | case3 => trivial
  | case4 offset depth t c cs hrest gap start kind text rest hcut depth' hdepth _ others ih =>
    exact ⟨rfl, ih⟩

theorem text_of_mem_scanFrom {offset depth : Nat} {t : Text} {s : Segment}
    (h : s ∈ (scanFrom offset depth t).segments) : ∃ body, s.token.text = '<' :: body := by
  fun_induction scanFrom offset depth t with
  | case1 => simp at h
  | case2 => simp at h
  | case3 => simp at h
  | case4 offset depth t c cs hrest gap start kind text rest hcut depth' hdepth _ others ih =>
    rcases List.mem_cons.mp h with rfl | hs
    · exact cutToken_text hcut
    · exact ih hs

variable {t : Text} {token : Token}

theorem mem_tokens_of_mem_elements (h : token ∈ (scan t).elements) : token ∈ (scan t).tokens :=
  (List.mem_filter.mp h).1

theorem text_of_mem_tokens (h : token ∈ (scan t).tokens) : ∃ body, token.text = '<' :: body := by
  obtain ⟨s, hs, rfl⟩ := List.mem_map.mp h
  exact text_of_mem_scanFrom hs

/-- A token splits the text into what stands before it, itself, and what
follows. -/
theorem exists_split_of_mem_tokens (h : token ∈ (scan t).tokens) :
    ∃ before after, t = before ++ token.text ++ after ∧ token.start = width before := by
  obtain ⟨s, hs, rfl⟩ := List.mem_map.mp h
  obtain ⟨before, after, hsplit⟩ := List.append_of_mem hs
  have hstart := consecutive_scanFrom 0 0 t
  change Segment.Consecutive 0 (scan t).segments at hstart
  rw [hsplit] at hstart
  refine ⟨before.flatMap Segment.source ++ s.gap,
    after.flatMap Segment.source ++ (scan t).tail, ?_, ?_⟩
  · calc t = (scan t).source := (source_scan t).symm
      _ = _ := by
        rw [source, hsplit]
        simp [Segment.source]
  · rw [hstart.start_eq, Nat.zero_add]

/-- **A token is the part of the text between its offsets.** -/
theorem slice?_of_mem_tokens (h : token ∈ (scan t).tokens) :
    slice? token.start token.stop t = some token.text := by
  obtain ⟨before, after, ht, hstart⟩ := exists_split_of_mem_tokens h
  rw [Token.stop, hstart, ht]
  exact slice?_append before token.text after

theorem stop_le_width (h : token ∈ (scan t).tokens) : token.stop ≤ width t := by
  obtain ⟨before, after, ht, hstart⟩ := exists_split_of_mem_tokens h
  rw [Token.stop, hstart, ht]
  simp only [width_append]
  omega

theorem start_lt_stop (h : token ∈ (scan t).tokens) : token.start < token.stop := by
  obtain ⟨body, hbody⟩ := text_of_mem_tokens h
  have hpos := Char.utf8Size_pos '<'
  rw [Token.stop, hbody, width_cons]
  omega

/-- **Tokens do not overlap.** -/
theorem pairwise_tokens (t : Text) :
    (scan t).tokens.Pairwise fun a b => a.stop ≤ b.start :=
  List.pairwise_map.mpr (consecutive_scanFrom 0 0 t).pairwise

theorem pairwise_elements (t : Text) :
    (scan t).elements.Pairwise fun a b => a.stop ≤ b.start :=
  (pairwise_tokens t).sublist List.filter_sublist

theorem nodup_elements (t : Text) : (scan t).elements.Nodup := by
  refine List.Pairwise.imp_of_mem ?_ (pairwise_elements t)
  intro a b ha hb hab heq
  have hlt := start_lt_stop (mem_tokens_of_mem_elements ha)
  rw [← heq] at hab
  omega

theorem length_elements_le (t : Text) : (scan t).elements.length ≤ width t := by
  have h := Token.length_le_of_pairwise (pairwise_elements t)
    (fun a ha => ⟨Nat.zero_le _, start_lt_stop (mem_tokens_of_mem_elements ha),
      stop_le_width (mem_tokens_of_mem_elements ha)⟩) (Nat.zero_le _)
  omega

end Scan

end SkinMarkup
