import SkinMarkup.Proofs.Scan.Lexing
import SkinMarkup.Proofs.Scan.Tiling

/-!
# Passing over exactly one element

A cursor keeps the tokens to come, and what it keeps is at any time the scan of the text
behind its position, from its depth on (`Cursor.Reachable.resumes`). So a call is one step
of a scanner that knows its position and its depth and nothing else
(`Cursor.Reachable.next_eq`).

A cursor that has handed out a start tag can pass over the element. It looks for an end
tag that leaves one element less open, and this is the end tag of the element: the first
one at which start tags and end tags balance (`Cursor.skipSubtree_of_next`). It does not
matter how the cursor came there, since no call leaves an end tag to come that closes
nothing (`Cursor.Reachable.sound`), so that depths count open elements everywhere
(`Cursor.Hands.depth_eq`).
-/

namespace SkinMarkup

namespace Token

/-- The number of elements that tokens open. -/
def opened (tokens : List Token) : Nat :=
  (tokens.map (·.kind)).count .opening

/-- The number of elements that tokens close. -/
def closed (tokens : List Token) : Nat :=
  (tokens.map (·.kind)).count .closing

variable {token : Token} {inside : List Token} {close : Token}

theorem opened_cons (token : Token) (tokens : List Token) :
    opened (token :: tokens) = opened [token] + opened tokens := by
  rw [opened, opened, opened, ← List.count_append]
  rfl

theorem closed_cons (token : Token) (tokens : List Token) :
    closed (token :: tokens) = closed [token] + closed tokens := by
  rw [closed, closed, closed, ← List.count_append]
  rfl

theorem opened_cons_opening (h : token.kind = .opening) (tokens : List Token) :
    opened (token :: tokens) = opened tokens + 1 := by
  rw [opened, List.map_cons, h, List.count_cons_self, opened]

theorem closed_cons_opening (h : token.kind = .opening) (tokens : List Token) :
    closed (token :: tokens) = closed tokens := by
  rw [closed, List.map_cons, h, List.count_cons_of_ne (by decide), closed]

theorem opened_concat_closing (h : close.kind = .closing) (tokens : List Token) :
    opened (tokens ++ [close]) = opened tokens := by
  simp [opened, h]

theorem closed_concat_closing (h : close.kind = .closing) (tokens : List Token) :
    closed (tokens ++ [close]) = closed tokens + 1 := by
  simp [closed, h]

/-- The end tag `close` stands where, from a start tag on, as many elements have been
closed as have been opened. -/
structure Encloses (token : Token) (inside : List Token) (close : Token) : Prop where
  closing : close.kind = .closing
  balanced : opened (token :: inside ++ [close]) = closed (token :: inside ++ [close])

/-- What stands between a start tag and an end tag that encloses it is balanced itself. -/
theorem encloses_iff (hopen : token.kind = .opening) :
    Encloses token inside close ↔ close.kind = .closing ∧ opened inside = closed inside := by
  have hiff : close.kind = .closing → (opened (token :: inside ++ [close]) =
      closed (token :: inside ++ [close]) ↔ opened inside = closed inside) := by
    intro hclose
    rw [opened_concat_closing hclose, closed_concat_closing hclose, opened_cons_opening hopen,
      closed_cons_opening hopen]
    omega
  constructor
  · intro h
    exact ⟨h.closing, (hiff h.closing).mp h.balanced⟩
  · rintro ⟨hclose, hinside⟩
    exact ⟨hclose, (hiff hclose).mpr hinside⟩

end Token

namespace Scan

/-- Behind its first token a scan goes on from where that stops, one level deeper or
higher if the token opens or closes an element. -/
theorem exists_scanFrom_of_cons {offset depth : Nat} {t : Text} {s : Segment}
    {others : List Segment} (h : (scanFrom offset depth t).segments = s :: others) :
    ∃ source rest depth', t = source ++ rest ∧ s.token.stop = offset + width source ∧
      s.token.kind.depthAfter depth = some depth' ∧
      others = (scanFrom s.token.stop depth' rest).segments ∧
      (scanFrom offset depth t).failure = (scanFrom s.token.stop depth' rest).failure := by
  have hsource := source_scanFrom offset depth t
  fun_cases scanFrom offset depth t with
  | case1 hrest =>
    rw [scanFrom_of_dropWhile_eq_nil hrest] at h
    cases h
  | case2 c cs hrest gap start hcut =>
    rw [scanFrom_of_failure hrest (by rw [hcut]; rfl)] at h
    cases h
  | case3 c cs hrest gap start kind text rest hcut hdepth =>
    rw [scanFrom_of_failure hrest (by rw [hcut]; exact hdepth)] at h
    cases h
  | case4 c cs hrest gap start kind text rest hcut depth' hdepth =>
    rw [scanFrom_of_cutToken hrest hcut hdepth] at h hsource
    cases h
    refine ⟨gap ++ text, rest, depth', ?_, ?_, hdepth, rfl, rfl⟩
    · have hothers := source_scanFrom (start + width text) depth' rest
      simp only [Scan.source, List.flatMap_cons, Segment.source, List.append_assoc] at hsource hothers
      rw [← hsource, hothers, List.append_assoc]
    · rw [Token.stop, width_append, ← Nat.add_assoc]

/-- One step of a scanner that stands at a position inside `depth` elements, given what
follows the position and the length of the text: the token, and the position, the depth and
the failure after it. -/
def step (length position depth : Nat) (rest : Text) : Option Token × Nat × Nat × Option Nat :=
  match rest.dropWhile (· != '<') with
  | [] => (none, position, depth, none)
  | _ :: cs =>
    let start := position + width (rest.takeWhile (· != '<'))
    match cutToken cs with
    | none => (none, length, depth, some start)
    | some (kind, text, _) =>
      match kind.depthAfter depth with
      | none => (none, length, depth, some start)
      | some depth => (some ⟨kind, start, text⟩, start + width text, depth, none)

end Scan

namespace Cursor

variable {t : Text} {c c' last : Cursor} {token : Token} {tokens : List Token} {s : Segment}
  {rest : List Segment} {target : Nat}

/-! ## Cursors after any calls -/

/-- The cursors that calls lead to on a text: each asks for a token, or passes over the
element of some token, whatever that is. -/
inductive Reachable (t : Text) : Cursor → Prop
  | start : Reachable t (ofText t)
  | next {c : Cursor} (h : Reachable t c) : Reachable t c.next.2
  | skip {c : Cursor} (h : Reachable t c) (token : Token) : Reachable t (c.skipSubtree token).2

/-! ## One step of a scanner -/

/-- A cursor at which a scan of what follows its position, from its depth on, goes on. -/
structure Resumes (t : Text) (c : Cursor) : Prop where
  length : c.length = width t
  scan : ∃ front rest, t = front ++ rest ∧ c.position = width front ∧
    c.pending = (Scan.scanFrom c.position c.depth rest).segments ∧
    (c.failure = none → c.fault = (Scan.scanFrom c.position c.depth rest).failure)

theorem Resumes.pass (h : c.Resumes t) (hpending : c.pending = s :: rest) :
    (c.pass s.token rest).Resumes t := by
  obtain ⟨hlength, front, behind, ht, hposition, hscan, hfault⟩ := h
  obtain ⟨source, behind', depth, hsplit, hstop, hdepth, hothers, hfailure⟩ :=
    Scan.exists_scanFrom_of_cons (hscan.symm.trans hpending)
  have hpass : (c.pass s.token rest).depth = depth := by
    rw [Cursor.pass, hdepth, Option.getD_some]
  refine ⟨hlength, front ++ source, behind', ?_, ?_, ?_, ?_⟩
  · rw [ht, hsplit, List.append_assoc]
  · rw [width_append, ← hposition]
    exact hstop
  · rw [hpass]
    exact hothers
  · rw [hpass]
    intro hfree
    exact (hfault hfree).trans hfailure

theorem Resumes.finish (h : c.Resumes t) (hpending : c.pending = []) : c.finish.Resumes t := by
  obtain ⟨hlength, front, behind, ht, hposition, hscan, hfault⟩ := h
  unfold Cursor.finish
  split
  · -- Behind the end of the text there is nothing to scan.
    refine ⟨hlength, t, [], (List.append_nil t).symm, hlength, ?_, by rintro ⟨⟩⟩
    rw [Scan.scanFrom_of_dropWhile_eq_nil rfl]
  · exact ⟨hlength, front, behind, ht, hposition, hpending ▸ hscan, hfault⟩

theorem Resumes.skipTo (h : c.Resumes t) (target : Nat) : (c.skipTo target c.pending).2.Resumes t := by
  induction hpending : c.pending generalizing c with
  | nil => exact h.finish hpending
  | cons s rest ih =>
    have hpass := h.pass hpending
    unfold Cursor.skipTo
    dsimp only
    split
    · exact hpass
    · exact ih hpass rfl

/-- **What a cursor keeps is the scan from its position and its depth**, after any calls. -/
theorem Reachable.resumes (h : Reachable t c) : c.Resumes t := by
  induction h with
  | start => exact ⟨rfl, [], t, rfl, rfl, rfl, fun _ => rfl⟩
  | @next c _ ih =>
    unfold Cursor.next
    split
    · next hpending => exact ih.pass hpending
    · next hpending => exact ih.finish hpending
  | @skip c _ token ih =>
    unfold skipSubtree
    split
    · exact ih.skipTo _
    · exact ih

/-- **A call is one step of a scanner**, as long as none has failed. What it hands out, and
the position, the depth and the failure after it, follow from the text behind the
position. -/
theorem Reachable.next_eq (h : Reachable t c) (hfree : c.failure = none) :
    ∃ front rest, t = front ++ rest ∧ c.position = width front ∧
      (c.next.1, c.next.2.position, c.next.2.depth, c.next.2.failure) =
        Scan.step (width t) c.position c.depth rest := by
  obtain ⟨hlength, front, rest, ht, hposition, hscan, hfault⟩ := h.resumes
  refine ⟨front, rest, ht, hposition, ?_⟩
  have hfault := hfault hfree
  rw [← hlength]
  unfold Scan.step
  split
  · next hnone =>
    rw [Scan.scanFrom_of_dropWhile_eq_nil hnone] at hscan hfault
    simp only [Cursor.next, hscan, Cursor.finish, hfault, hfree]
  · next head cs hrest =>
    cases hcut : Scan.cutToken cs with
    | none =>
      rw [Scan.scanFrom_of_failure hrest (by rw [hcut]; rfl)] at hscan hfault
      simp [Cursor.next, hscan, Cursor.finish, hfault]
    | some cut =>
      obtain ⟨kind, text, after⟩ := cut
      cases hdepth : kind.depthAfter c.depth with
      | none =>
        rw [Scan.scanFrom_of_failure hrest (by rw [hcut]; exact hdepth)] at hscan hfault
        simp [Cursor.next, hscan, Cursor.finish, hfault, hdepth]
      | some depth =>
        rw [Scan.scanFrom_of_cutToken hrest hcut hdepth] at hscan
        simp [Cursor.next, hscan, Cursor.pass, Token.stop, hdepth, hfree]

/-! ## Depths -/

/-- Every end tag to come closes an element. -/
def Sound (c : Cursor) : Prop :=
  ∃ final, Segment.depthAfter c.depth c.pending = some final

theorem sound_finish (c : Cursor) : c.finish.Sound := by
  unfold finish
  split <;> exact ⟨_, rfl⟩

/-- **One token** changes the depth by what it opens or closes. -/
theorem Sound.pass (h : c.Sound) (hpending : c.pending = s :: rest) :
    (c.pass s.token rest).Sound ∧ (c.pass s.token rest).depth + Token.closed [s.token] =
      c.depth + Token.opened [s.token] := by
  obtain ⟨final, hfinal⟩ := h
  rw [hpending, Segment.depthAfter] at hfinal
  obtain ⟨depth, hdepth, hrest⟩ := Option.bind_eq_some_iff.mp hfinal
  have hpass : (c.pass s.token rest).depth = depth := by
    rw [Cursor.pass, hdepth, Option.getD_some]
  refine ⟨⟨final, ?_⟩, ?_⟩
  · rw [hpass]
    exact hrest
  · have hone : Segment.depthAfter c.depth [s] = some depth := by
      rw [Segment.depthAfter, hdepth]
      rfl
    rw [hpass]
    exact Segment.depthAfter_add_count hone

theorem Sound.skipTo (h : c.Sound) (target : Nat) : (c.skipTo target c.pending).2.Sound := by
  induction hpending : c.pending generalizing c with
  | nil => exact sound_finish c
  | cons s rest ih =>
    obtain ⟨hpass, -⟩ := h.pass hpending
    unfold Cursor.skipTo
    dsimp only
    split
    · exact hpass
    · exact ih hpass rfl

/-- **No call leaves an end tag to come that closes nothing.** -/
theorem Reachable.sound (h : Reachable t c) : c.Sound := by
  induction h with
  | start => exact ⟨_, Scan.depthAfter_scan t⟩
  | @next c _ ih =>
    unfold Cursor.next
    split
    · next hpending => exact (ih.pass hpending).1
    · exact sound_finish c
  | @skip c _ token ih =>
    unfold skipSubtree
    split
    · exact ih.skipTo _
    · exact ih

theorem Sound.next (h : c.Sound) (hnext : c.next = (some token, c')) :
    c'.Sound ∧ c'.depth + Token.closed [token] = c.depth + Token.opened [token] := by
  unfold Cursor.next at hnext
  split at hnext
  · next hpending =>
    cases hnext
    exact h.pass hpending
  · cases hnext

/-- **Along all calls the depth counts the open elements.** -/
theorem Hands.depth_eq (h : c.Hands tokens last) (hsound : c.Sound) :
    last.depth + Token.closed tokens = c.depth + Token.opened tokens := by
  induction h with
  | nil c => rfl
  | cons hnext _ ih =>
    obtain ⟨hsound, hstep⟩ := hsound.next hnext
    have hrest := ih hsound
    rw [Token.opened_cons, Token.closed_cons]
    omega

/-! ## The end tag of an element -/

/-- The first token that a cursor hands out is the first one that is pending. -/
theorem hands_cons_iff (hpending : c.pending = s :: rest) :
    c.Hands (token :: tokens) last ↔
      token = s.token ∧ (c.pass s.token rest).Hands tokens last := by
  have hnext : c.next = (some s.token, c.pass s.token rest) := by
    rw [Cursor.next, hpending]
  constructor
  · rintro (_ | ⟨hfirst, hothers⟩)
    cases hnext.symm.trans hfirst
    exact ⟨rfl, hothers⟩
  · rintro ⟨rfl, hothers⟩
    exact .cons hnext hothers

theorem eq_nil_of_hands (hpending : c.pending = []) (h : c.Hands tokens last) : tokens = [] := by
  cases h with
  | nil => rfl
  | cons hnext _ =>
    rw [Cursor.next, hpending] at hnext
    cases hnext

/-- A cursor that has come to its end stays there. -/
theorem next_finish (c : Cursor) : c.finish.next = (none, c.finish) := by
  unfold finish
  split
  · next hfault => rw [Cursor.next, finish, hfault]
  · next hfault => rw [Cursor.next, finish, hfault]

/-- **What a cursor finds that looks for a depth below its own.** Either it goes token by
token to the first end tag at this depth, and all tokens in between keep above it. Or
all tokens keep above it, and the cursor comes to its end. -/
theorem Sound.skipTo_cases (h : c.Sound) (htarget : target < c.depth) :
    (∃ inside close last, c.skipTo target c.pending = (some close.stop, last) ∧
      c.Hands (inside ++ [close]) last ∧ close.kind = .closing ∧
      last.position = close.stop ∧ last.depth = target ∧
      ∀ front, front <+: inside → target + Token.closed front < c.depth + Token.opened front) ∨
    (∃ last, c.skipTo target c.pending = (none, last) ∧ last.next = (none, last) ∧
      ∀ tokens later, c.Hands tokens later →
        target + Token.closed tokens < c.depth + Token.opened tokens) := by
  induction hpending : c.pending generalizing c with
  | nil =>
    refine .inr ⟨c.finish, rfl, next_finish c, ?_⟩
    intro tokens later hhands
    rw [eq_nil_of_hands hpending hhands]
    exact htarget
  | cons s rest ih =>
    obtain ⟨hpass, hdepth⟩ := h.pass hpending
    unfold Cursor.skipTo
    dsimp only
    by_cases hfound : s.token.kind = .closing ∧ (c.pass s.token rest).depth = target
    · rw [if_pos hfound]
      refine .inl ⟨[], s.token, c.pass s.token rest, rfl, ?_, hfound.1, rfl, hfound.2, ?_⟩
      · exact (hands_cons_iff hpending).mpr ⟨rfl, .nil _⟩
      · intro front hfront
        rw [List.prefix_nil.mp hfront]
        exact htarget
    · rw [if_neg hfound]
      have habove : target < (c.pass s.token rest).depth := by
        by_cases hclosing : s.token.kind = .closing
        · have hne : (c.pass s.token rest).depth ≠ target := fun heq => hfound ⟨hclosing, heq⟩
          have hone : Token.closed [s.token] = 1 ∧ Token.opened [s.token] = 0 := by
            simp [Token.closed, Token.opened, hclosing]
          omega
        · have hnone : Token.closed [s.token] = 0 := by
            simp [Token.closed, hclosing]
          omega
      -- The rest is counted from the depth behind this token.
      have hcount : ∀ tokens, target + Token.closed tokens <
            (c.pass s.token rest).depth + Token.opened tokens →
          target + Token.closed (s.token :: tokens) <
            c.depth + Token.opened (s.token :: tokens) := by
        intro tokens hlt
        rw [Token.opened_cons, Token.closed_cons]
        omega
      rcases ih hpass habove rfl with
        ⟨inside, close, last, heq, hhands, hclose, hposition, hlast, hfronts⟩ |
        ⟨last, heq, hlast, hall⟩
      · refine .inl ⟨s.token :: inside, close, last, heq, ?_, hclose, hposition, hlast, ?_⟩
        · exact (hands_cons_iff hpending).mpr ⟨rfl, hhands⟩
        · intro front hfront
          rcases List.prefix_cons_iff.mp hfront with rfl | ⟨others, rfl, hothers⟩
          · exact htarget
          · exact hcount others (hfronts others hothers)
      · refine .inr ⟨last, heq, hlast, ?_⟩
        rintro (_ | ⟨token, tokens⟩) later hhands
        · exact htarget
        · obtain ⟨rfl, hothers⟩ := (hands_cons_iff hpending).mp hhands
          exact hcount tokens (hall tokens later hothers)

/-- **Passing over an element consumes exactly one element.** After any calls, let a
cursor hand out a start tag, and then pass over its element. This succeeds if and only
if the tokens to come have an end tag at which start tags and end tags balance. It then
goes as token after token would to the first such end tag, stands at its end with one
element less open, and in what it passed no part from the start closes more elements
than it opens. Otherwise the cursor comes to its end and hands out nothing more. -/
theorem skipSubtree_of_next (hc : Reachable t c) (hnext : c.next = (some token, c'))
    (hopen : token.kind = .opening) :
    ((c'.skipSubtree token).1.isSome = true ↔
      ∃ inside close last, c'.Hands (inside ++ [close]) last ∧ token.Encloses inside close) ∧
    (∀ stop last, c'.skipSubtree token = (some stop, last) →
      ∃ inside close, c'.Hands (inside ++ [close]) last ∧ token.Encloses inside close ∧
        (∀ earlier other, earlier ++ [other] <+: inside → ¬ token.Encloses earlier other) ∧
        stop = close.stop ∧ last.position = close.stop ∧ last.depth + 1 = c'.depth ∧
        ∀ front, front <+: inside → Token.closed front ≤ Token.opened front) ∧
    ∀ last, c'.skipSubtree token = (none, last) → last.next = (none, last) := by
  obtain ⟨hsound, hdepth⟩ := hc.sound.next hnext
  rw [Token.opened_cons_opening hopen, Token.closed_cons_opening hopen] at hdepth
  change c'.depth + 0 = c.depth + (0 + 1) at hdepth
  have hskip : c'.skipSubtree token = c'.skipTo (c'.depth - 1) c'.pending := by
    rw [skipSubtree, if_pos hopen]
  rw [hskip]
  have htarget : c'.depth - 1 < c'.depth := by omega
  rcases hsound.skipTo_cases htarget with
    ⟨inside, close, last, heq, hhands, hclose, hposition, hlast, hfronts⟩ | ⟨last, heq, hlast, hall⟩
  · have hfronts : ∀ front, front <+: inside → Token.closed front ≤ Token.opened front := by
      intro front hfront
      have := hfronts front hfront
      omega
    have hencloses : token.Encloses inside close := by
      have hbalance := hhands.depth_eq hsound
      rw [Token.closed_concat_closing hclose, Token.opened_concat_closing hclose] at hbalance
      exact (Token.encloses_iff hopen).mpr ⟨hclose, by omega⟩
    rw [heq]
    refine ⟨?_, ?_, ?_⟩
    · exact iff_of_true rfl ⟨inside, close, last, hhands, hencloses⟩
    · rintro stop last' ⟨⟩
      refine ⟨inside, close, hhands, hencloses, ?_, rfl, hposition, by omega, hfronts⟩
      intro earlier other hprefix hearlier
      -- An end tag that balances closes more than what stands inside before it opened.
      have hle := hfronts _ hprefix
      obtain ⟨hother, hbalanced⟩ := (Token.encloses_iff hopen).mp hearlier
      rw [Token.closed_concat_closing hother, Token.opened_concat_closing hother] at hle
      omega
    · rintro last' ⟨⟩
  · rw [heq]
    refine ⟨?_, ?_, ?_⟩
    · refine iff_of_false (by simp) ?_
      rintro ⟨inside, close, later, hhands, hencloses⟩
      have hlt := hall _ later hhands
      obtain ⟨hclose, hbalanced⟩ := (Token.encloses_iff hopen).mp hencloses
      rw [Token.closed_concat_closing hclose, Token.opened_concat_closing hclose] at hlt
      omega
    · rintro stop last' ⟨⟩
    · rintro last' ⟨⟩
      exact hlast

/-- An element that comes after one that was passed over, with an element of the same name
and a comment in it. -/
theorem skipSubtree_of_nested :
    let t := "<a><c><c/></c><b x='>'><b><c/></b><!-- </b> --></b><c><d></d>".toList
    let first : Token := ⟨.opening, 3, "<c>".toList⟩
    let token : Token := ⟨.opening, 14, "<b x='>'>".toList⟩
    let c := ((ofText t).next.2.next.2.skipSubtree first).2
    let c' := c.next.2
    Reachable t c ∧ c.next = (some token, c') ∧ token.kind = .opening ∧ c'.depth = 2 ∧
      ∃ last, c'.skipSubtree token = (some 51, last) ∧
      ∃ inside close, c'.Hands (inside ++ [close]) last ∧ token.Encloses inside close ∧
        (∀ earlier other, earlier ++ [other] <+: inside → ¬ token.Encloses earlier other) ∧
        51 = close.stop ∧ last.position = close.stop ∧ last.depth + 1 = c'.depth ∧
        ∀ front, front <+: inside → Token.closed front ≤ Token.opened front := by
  intro t first token c c'
  have hc : Reachable t c := .skip (.next (.next .start)) first
  have hnext : c.next = (some token, c') := Prod.ext (by decide +kernel) rfl
  have hskip : c'.skipSubtree token = (some 51, (c'.skipSubtree token).2) :=
    Prod.ext (by decide +kernel) rfl
  obtain ⟨-, hfound, -⟩ := skipSubtree_of_next hc hnext rfl
  exact ⟨hc, hnext, rfl, by decide +kernel, _, hskip, hfound 51 _ hskip⟩

end Cursor

end SkinMarkup
