import SkinMarkup.Proofs.Scan.Layout
import SkinMarkup.Proofs.Scan.Recut
import SkinMarkup.Scan.Cursor

/-!
# Tokens and gaps tile a text

A cursor that is asked for token after token stops for every text, and what it
handed out tiles the text (`exists_hands_tiles`): tokens run from a `<` to a `>`, the
gaps between them have no `<`, and the two together are the text up to its end or up
to the `<` where the scan failed. There either the token is not ended (`Unended`) or
an end tag stands where nothing is open (`Scan.Stops`).

- `cutElement_eq_none_iff`: a tag is not ended if each `>` stands inside quotes.
- `Cursor.Reached.next`: what one call preserves; `Cursor.Hands.reached`: what all
  calls together preserve.
-/

namespace SkinMarkup

namespace Scan

/-! ## Texts that end inside a token -/

/-- The quote that is open after a text, given the character before the text and the
quote that is open at its start. A quote right after a backslash is no quote. -/
def quoteAfter (previous : Char) : (quote : Option Char) → Text → Option Char
  | quote, [] => quote
  | none, c :: cs =>
    quoteAfter c (if (c = '"' ∨ c = '\'') ∧ previous ≠ '\\' then some c else none) cs
  | some q, c :: cs => quoteAfter c (if c = q ∧ previous ≠ '\\' then none else some q) cs

/-- A tag does not end in a text if every `>` there stands between quotes. -/
theorem cutElement_eq_none_iff {previous : Char} {quote : Option Char} {t : Text} :
    cutElement previous quote t = none ↔
      ∀ a b, t = a ++ '>' :: b → quoteAfter previous quote a ≠ none := by
  induction t generalizing previous quote with
  | nil => simp [cutElement]
  | cons c cs ih =>
    cases quote with
    | none =>
      by_cases hc : c = '>'
      · simp only [cutElement, if_pos hc, reduceCtorEq, false_iff]
        exact fun h => h [] cs (by rw [hc]; rfl) rfl
      · rw [cutElement, if_neg hc]
        simp only [Option.map_eq_none_iff]
        rw [ih]
        constructor
        · intro h a b hab
          cases a with
          | nil => exact absurd (List.cons.inj hab).1 hc
          | cons d ds =>
            obtain ⟨rfl, rfl⟩ := List.cons.inj hab
            exact h ds b rfl
        · rintro h a b rfl
          exact h (c :: a) b rfl
    | some q =>
      rw [cutElement]
      simp only [Option.map_eq_none_iff]
      rw [ih]
      constructor
      · intro h a b hab
        cases a with
        | nil => simp [quoteAfter]
        | cons d ds =>
          obtain ⟨rfl, rfl⟩ := List.cons.inj hab
          exact h ds b rfl
      · rintro h a b rfl
        exact h (c :: a) b rfl

/-- What follows the `<` of a token that is not ended: each form of token has an
ending of its own. -/
inductive Unended : Text → Prop
  | comment {t : Text} (h : ¬ ['-', '-', '>'] <:+: t) : Unended (['!', '-', '-'] ++ t)
  | cdata {t : Text} (h : ¬ [']', ']', '>'] <:+: t) :
      Unended (['!', '[', 'C', 'D', 'A', 'T', 'A', '['] ++ t)
  | instruction {t : Text} (h : ¬ ['?', '>'] <:+: t) : Unended (['?'] ++ t)
  | declaration {t : Text} (hcomment : ¬ ['-', '-'] <+: t)
      (hcdata : ¬ ['[', 'C', 'D', 'A', 'T', 'A', '['] <+: t) (h : '>' ∉ t) :
      Unended (['!'] ++ t)
  | element {t : Text} (hmark : ¬ ['!'] <+: t) (hinstruction : ¬ ['?'] <+: t)
      (h : ∀ a b, t = a ++ '>' :: b → quoteAfter '<' none a ≠ none) : Unended t

theorem cutEnclosed_eq_none_iff {kind : TokenKind} {opener closer t : Text} :
    cutEnclosed kind opener closer t = none ↔ ¬ closer <:+: t := by
  rw [cutEnclosed, Option.map_eq_none_iff, cutAtWord_eq_none_iff]

theorem unended_of_cutToken {t : Text} (h : cutToken t = none) : Unended t := by
  unfold cutToken at h
  split at h
  · next hafter =>
    rw [after?_eq_some hafter]
    exact .comment (cutEnclosed_eq_none_iff.mp h)
  · next hcomment =>
    split at h
    · next hafter =>
      rw [after?_eq_some hafter]
      exact .cdata (cutEnclosed_eq_none_iff.mp h)
    · next hcdata =>
      split at h
      · next hafter =>
        rw [after?_eq_some hafter]
        exact .instruction (cutEnclosed_eq_none_iff.mp h)
      · next hinstruction =>
        split at h
        · next hafter =>
          obtain rfl := after?_eq_some hafter
          rw [after?_eq_none_iff] at hcomment hcdata
          refine .declaration (fun hp => hcomment ?_) (fun hp => hcdata ?_) fun hmem => ?_
          · exact List.cons_prefix_cons.mpr ⟨rfl, hp⟩
          · exact List.cons_prefix_cons.mpr ⟨rfl, hp⟩
          · obtain ⟨a, b, rfl⟩ := List.append_of_mem hmem
            exact cutEnclosed_eq_none_iff.mp h ⟨a, b, by simp⟩
        · next hmark =>
          rw [cutTagToken, Option.map_eq_none_iff, cutElement_eq_none_iff] at h
          exact .element (after?_eq_none_iff.mp hmark) (after?_eq_none_iff.mp hinstruction) h

/-! ## Where a scan ends -/

/-- Why no token starts at a `<`, given the number of open elements and what follows
the `<`. -/
inductive Stops (depth : Nat) (t : Text) : Prop
  | unended (h : Unended t)
  | stray (hdepth : depth = 0) (text rest : Text) (h : cutToken t = some (.closing, text, rest))

theorem stops_of_depthAfter {kind : TokenKind} {depth : Nat} {t text rest : Text}
    (hcut : cutToken t = some (kind, text, rest)) (h : kind.depthAfter depth = none) :
    Stops depth t := by
  cases kind with
  | closing =>
    cases depth with
    | zero => exact .stray rfl text rest hcut
    | succ depth => cases h
  | _ => cases h

/-- What a scan did not divide into tokens: it has no `<`, or the scan failed at its
first `<`. -/
theorem tail_scanFrom (offset depth : Nat) (t : Text) :
    match (scanFrom offset depth t).failure with
    | none => '<' ∉ (scanFrom offset depth t).tail
    | some failure => ∃ gap rest, (scanFrom offset depth t).tail = gap ++ '<' :: rest ∧
        '<' ∉ gap ∧
        failure =
          offset + width (Segment.sourceAll (scanFrom offset depth t).segments ++ gap) ∧
        Stops (scanFrom offset depth t).depth rest := by
  have hsplit : ∀ {c : Char} {cs : Text} {t : Text}, t.dropWhile (· != '<') = c :: cs →
      t = t.takeWhile (· != '<') ++ '<' :: cs := by
    intro c cs t hrest
    have hc := List.head?_dropWhile_not (· != '<') t
    rw [hrest] at hc
    obtain rfl : c = '<' := by simpa using hc
    rw [← hrest, List.takeWhile_append_dropWhile]
  have hgap : ∀ t : Text, '<' ∉ t.takeWhile (· != '<') := by
    intro t hmem
    have hne := List.all_eq_true.mp List.all_takeWhile '<' hmem
    simp at hne
  fun_induction scanFrom offset depth t with
  | case1 offset depth t hrest =>
    have ht := List.takeWhile_append_dropWhile (p := (· != '<')) (l := t)
    rw [hrest, List.append_nil] at ht
    dsimp only
    rw [← ht]
    exact hgap t
  | case2 offset depth t c cs hrest gap start hcut =>
    exact ⟨gap, cs, hsplit hrest, hgap t, rfl, .unended (unended_of_cutToken hcut)⟩
  | case3 offset depth t c cs hrest gap start kind text rest hcut hdepth =>
    exact ⟨gap, cs, hsplit hrest, hgap t, rfl, stops_of_depthAfter hcut hdepth⟩
  | case4 offset depth t c cs hrest gap start kind text rest hcut depth' hdepth _ others ih =>
    cases hfailure : others.failure with
    | none =>
      rw [hfailure] at ih
      exact ih
    | some failure =>
      rw [hfailure] at ih
      obtain ⟨gap', rest', htail, hgap', heq, hstops⟩ := ih
      refine ⟨gap', rest', htail, hgap', ?_, hstops⟩
      rw [heq, Segment.sourceAll_cons]
      simp only [width_append, start, others]
      omega

theorem tail_scan (t : Text) :
    match (scan t).failure with
    | none => '<' ∉ (scan t).tail
    | some failure => ∃ gap rest, (scan t).tail = gap ++ '<' :: rest ∧ '<' ∉ gap ∧
        failure = width (Segment.sourceAll (scan t).segments ++ gap) ∧
        Stops (scan t).depth rest := by
  have h := tail_scanFrom 0 0 t
  simp only [Nat.zero_add] at h
  exact h

end Scan

/-! ## The tiles -/

theorem Scan.exists_enclosed_of_cutEnclosed {kind kind' : TokenKind} {opener t text rest : Text}
    (closer : Text) (h : cutEnclosed kind opener (closer ++ ['>']) t = some (kind', text, rest)) :
    ∃ body, text = opener ++ body ++ ['>'] := by
  simp only [cutEnclosed, Option.map_eq_some_iff, Prod.mk.injEq, Prod.exists] at h
  obtain ⟨content, after, -, -, rfl, -⟩ := h
  exact ⟨content ++ closer, by simp⟩

/-- A token runs from a `<` to a `>`. -/
theorem Scan.exists_enclosed_of_cutToken {kind : TokenKind} {t text rest : Text}
    (h : cutToken t = some (kind, text, rest)) : ∃ body, text = '<' :: body ++ ['>'] := by
  unfold cutToken at h
  split at h
  · obtain ⟨body, rfl⟩ := exists_enclosed_of_cutEnclosed ['-', '-'] h
    exact ⟨['!', '-', '-'] ++ body, rfl⟩
  · split at h
    · obtain ⟨body, rfl⟩ := exists_enclosed_of_cutEnclosed [']', ']'] h
      exact ⟨['!', '[', 'C', 'D', 'A', 'T', 'A', '['] ++ body, rfl⟩
    · split at h
      · obtain ⟨body, rfl⟩ := exists_enclosed_of_cutEnclosed ['?'] h
        exact ⟨['?'] ++ body, rfl⟩
      · split at h
        · obtain ⟨body, rfl⟩ := exists_enclosed_of_cutEnclosed [] h
          exact ⟨['!'] ++ body, rfl⟩
        · simp only [cutTagToken, Option.map_eq_some_iff, Prod.mk.injEq, Prod.exists] at h
          obtain ⟨content, after, -, -, rfl, -⟩ := h
          exact ⟨content, rfl⟩

/-- Segments and a tail that make up a text. Each token runs from a `<` to a `>` and
is the text between its offsets, a token ends before the next one starts, and no gap
has a `<`. -/
structure Tiles (t : Text) (segments : List Segment) (tail : Text) : Prop where
  source : Segment.sourceAll segments ++ tail = t
  consecutive : Segment.Consecutive 0 segments
  gap : ∀ s ∈ segments, '<' ∉ s.gap
  enclosed : ∀ s ∈ segments, ∃ body, s.token.text = '<' :: body ++ ['>']
  nonempty : ∀ s ∈ segments, s.token.start < s.token.stop
  slice : ∀ s ∈ segments, slice? s.token.start s.token.stop t = some s.token.text
  pairwise : segments.Pairwise fun a b => a.token.stop ≤ b.token.start

theorem tiles_scan (t : Text) : Tiles t (scan t).segments (scan t).tail where
  source := source_scan t
  consecutive := Scan.consecutive_scanFrom 0 0 t
  gap := fun s hs => ((Scan.divides_scanFrom 0 0 t).isCut s hs).gap
  enclosed := by
    intro s hs
    obtain ⟨-, body, -, hcut⟩ := (Scan.divides_scanFrom 0 0 t).isCut s hs
    exact Scan.exists_enclosed_of_cutToken hcut
  nonempty := fun s hs => Scan.start_lt_stop (List.mem_map_of_mem hs)
  slice := fun s hs => Scan.slice?_of_mem_tokens (List.mem_map_of_mem hs)
  pairwise := (Scan.consecutive_scanFrom 0 0 t).pairwise

/-- An end tag closes what a start tag opened: the depth after segments and the end
tags among them make up the start tags. -/
theorem Segment.depthAfter_add_count {depth final : Nat} {segments : List Segment}
    (h : depthAfter depth segments = some final) :
    final + (segments.map (·.token.kind)).count .closing =
      depth + (segments.map (·.token.kind)).count .opening := by
  induction segments generalizing depth with
  | nil =>
    cases h
    simp
  | cons s rest ih =>
    obtain ⟨between, hfirst, hrest⟩ := Option.bind_eq_some_iff.mp h
    have hcount := ih hrest
    rw [List.map_cons, List.count_cons, List.count_cons]
    cases hkind : s.token.kind with
    | opening =>
      rw [hkind] at hfirst
      cases hfirst
      simp
      omega
    | closing =>
      rw [hkind] at hfirst
      cases depth with
      | zero => cases hfirst
      | succ depth =>
        cases hfirst
        simp
        omega
    | _ =>
      rw [hkind] at hfirst
      cases hfirst
      simpa using hcount

theorem Segment.depthAfter_append_eq_bind {depth : Nat} (first second : List Segment) :
    depthAfter depth (first ++ second) =
      (depthAfter depth first).bind fun depth => depthAfter depth second := by
  induction first generalizing depth with
  | nil => rfl
  | cons s rest ih =>
    rw [List.cons_append, depthAfter, depthAfter, Option.bind_assoc]
    exact congrArg _ (funext fun depth => ih)

/-! ## Going through the tokens -/

namespace Cursor

variable {t : Text} {c c' : Cursor} {token : Token} {tokens : List Token}

/-- Call after call hands out some tokens and leads from one cursor to another. -/
inductive Hands : Cursor → List Token → Cursor → Prop
  | nil (c : Cursor) : Hands c [] c
  | cons {c c' c'' : Cursor} {token : Token} {tokens : List Token}
      (h : c.next = (some token, c')) (others : Hands c' tokens c'') :
      Hands c (token :: tokens) c''

/-- What is true of a cursor on a text after it has handed out tokens: they are those
at the start of the scan, its depth is what they opened and did not close, its
position is the end of the last one, and it has not met a failure. -/
structure Reached (t : Text) (tokens : List Token) (c : Cursor) : Prop where
  handed : ∃ before, before ++ c.pending = (scan t).segments ∧
    tokens = before.map (·.token) ∧ Segment.depthAfter 0 before = some c.depth
  position : c.position = (tokens.getLast?.map Token.stop).getD 0
  fault : c.fault = (scan t).failure
  length : c.length = width t
  failure : c.failure = none

theorem reached_ofText (t : Text) : Reached t [] (ofText t) where
  handed := ⟨[], rfl, rfl, rfl⟩
  position := rfl
  fault := rfl
  length := rfl
  failure := rfl

/-- **What one call preserves.** -/
theorem Reached.next (h : Reached t tokens c) (hnext : c.next = (some token, c')) :
    Reached t (tokens ++ [token]) c' := by
  rcases c with ⟨pending, fault, length, position, depth, failure⟩
  cases pending with
  | nil => cases hnext
  | cons s rest =>
    cases hnext
    obtain ⟨before, hsegments, htokens, hdepth⟩ := h.handed
    dsimp only at hsegments hdepth
    -- The scan did not fail at this token, so the depth has a successor here.
    have hall := Scan.depthAfter_scan t
    rw [← hsegments, Segment.depthAfter_append_eq_bind, hdepth, Option.bind_some] at hall
    obtain ⟨depth', hfirst, -⟩ := Option.bind_eq_some_iff.mp hall
    refine ⟨⟨before ++ [s], ?_, ?_, ?_⟩, ?_, h.fault, h.length, h.failure⟩
    · rw [← hsegments, List.append_assoc]
      rfl
    · rw [htokens, List.map_append]
      rfl
    · rw [Segment.depthAfter_append_eq_bind, hdepth, Option.bind_some, pass]
      simp [Segment.depthAfter, hfirst]
    · simp [pass]

/-- **What all calls together preserve.** -/
theorem Hands.reached {before : List Token} (h : Hands c tokens c') (hc : Reached t before c) :
    Reached t (before ++ tokens) c' := by
  induction h generalizing before with
  | nil c => rwa [List.append_nil]
  | cons hnext _ ih =>
    rw [List.append_cons]
    exact ih (hc.next hnext)

/-- Call after call, a cursor hands out everything that is pending. -/
theorem exists_hands (c : Cursor) :
    ∃ last, c.Hands (c.pending.map (·.token)) last ∧ last.pending = [] := by
  induction hpending : c.pending generalizing c with
  | nil => exact ⟨c, .nil c, hpending⟩
  | cons s rest ih =>
    obtain ⟨last, hlast, hnil⟩ := ih (c.pass s.token rest) rfl
    refine ⟨last, .cons ?_ hlast, hnil⟩
    rw [next, hpending]

/-- **A cursor tiles every text.** Asked for token after token, it stops; what it
handed out tiles the text, and at each point its depth and its position are those of
the tokens so far. Stopped, it stays as it is. Either it has met no failure, the tail
has no `<`, and nothing is open if and only if start and end tags balance; or it
stands at the end of the text and failed at the first `<` behind the last token. -/
theorem exists_hands_tiles (t : Text) :
    ∃ segments tail last stopped,
      (ofText t).Hands (segments.map (·.token)) last ∧ last.next = (none, stopped) ∧
      stopped.next = (none, stopped) ∧
      Tiles t segments tail ∧
      (∀ tokens c, (ofText t).Hands tokens c → tokens <+: segments.map (·.token) ∧
        c.depth + (tokens.map (·.kind)).count .closing = (tokens.map (·.kind)).count .opening ∧
        c.position = (tokens.getLast?.map Token.stop).getD 0 ∧ c.failure = none) ∧
      match stopped.failure with
      | none => '<' ∉ tail ∧
        (stopped.isClean = true ↔
          (segments.map (·.token.kind)).count .opening =
            (segments.map (·.token.kind)).count .closing)
      | some failure => stopped.position = width t ∧
        ∃ gap rest, tail = gap ++ '<' :: rest ∧ '<' ∉ gap ∧
          failure = width (Segment.sourceAll segments ++ gap) ∧
          Scan.Stops last.depth rest := by
  obtain ⟨last, hhands, hnil⟩ := exists_hands (ofText t)
  have hlast : Reached t ((scan t).segments.map (·.token)) last := hhands.reached (reached_ofText t)
  have hnext : last.next = (none, last.finish) := by rw [next, hnil]
  have hdepth : last.depth = (scan t).depth := by
    obtain ⟨before, hbefore, -, hafter⟩ := hlast.handed
    rw [hnil, List.append_nil] at hbefore
    have hall := Scan.depthAfter_scan t
    rw [← hbefore, hafter] at hall
    exact Option.some.inj hall
  have htail := Scan.tail_scan t
  refine ⟨(scan t).segments, (scan t).tail, last, last.finish, hhands, hnext, ?_, tiles_scan t,
    ?_, ?_⟩
  · rcases last with ⟨pending, fault, length, position, depth, failure⟩
    cases fault <;> rfl
  · intro tokens c hc
    have hreached : Reached t tokens c := hc.reached (reached_ofText t)
    obtain ⟨before, hsegments, rfl, hafter⟩ := hreached.handed
    have hcount := Segment.depthAfter_add_count hafter
    rw [Nat.zero_add] at hcount
    refine ⟨⟨c.pending.map (·.token), ?_⟩, ?_, hreached.position, hreached.failure⟩
    · rw [← hsegments, List.map_append]
    · rw [List.map_map]
      exact hcount
  · cases hfault : (scan t).failure with
    | none =>
      rw [hfault] at htail
      have hfinish : last.finish = { last with pending := [] } := by
        rw [finish, hlast.fault, hfault]
      have hcount := Segment.depthAfter_add_count (Scan.depthAfter_scan t)
      rw [hfinish]
      dsimp only
      rw [hlast.failure]
      refine ⟨htail, ?_⟩
      simp only [isClean, hdepth, Option.isNone_none, Bool.true_and, beq_iff_eq]
      omega
    | some failure =>
      rw [hfault] at htail
      have hfinish : last.finish =
          { last with pending := [], failure := some failure, position := last.length } := by
        rw [finish, hlast.fault, hfault]
      rw [hfinish, hdepth]
      exact ⟨hlast.length, htail⟩

end Cursor

end SkinMarkup
