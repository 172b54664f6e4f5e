import SkinMarkup.Edit.Revision
import SkinMarkup.Proofs.Markup.Scanning
import SkinMarkup.Proofs.Text.Trim

/-!
# Revising markup

A revision of a text decides about tokens. For a document this comes to the same
as deciding about the elements of its markup (`Markup.Spans.revisesAs`, with one
lemma for each way in which markup starts), and so for its text:
`Markup.reviseText_source`. Where an element goes, the text before it and the text
behind it become one run of text, without the blanks in between that stood before
the element.
-/

namespace SkinMarkup

/-- What becomes of an element. -/
inductive Verdict where
  /-- Its start tag gets another content, and the elements inside are looked
  at. -/
  | write (content : Text)
  | pass
  | erase

/-- What becomes of the token that starts an element. -/
def Verdict.action (selfClosing : Bool) : Verdict → Action
  | write content => .replace (Event.start selfClosing content).source
  | pass => .pass
  | erase => .erase

/-! ## One segment -/

namespace Segment

variable {σ : Type} {act : σ → Token → σ × Action} {memory memory' : σ} {s : Segment}
  {rest inside after : List Segment}

theorem revise_nil : revise act memory [] = [] := by
  rw [revise]

theorem revise_of_keep (h : act memory s.token = (memory', .keep)) :
    revise act memory (s :: rest) = s.source ++ revise act memory' rest := by
  rw [revise, h]

theorem revise_of_replace {tag : Text} (h : act memory s.token = (memory', .replace tag)) :
    revise act memory (s :: rest) = s.gap ++ tag ++ revise act memory' rest := by
  rw [revise, h]

theorem revise_of_pass (h : act memory s.token = (memory', .pass))
    (hsplit : splitAfter s.token rest = some (inside, after)) :
    revise act memory (s :: rest) = s.source ++ sourceAll inside ++ revise act memory' after := by
  rw [revise, h]
  dsimp only
  split
  · next heq =>
    cases hsplit.symm.trans heq
    rfl
  · next heq => cases hsplit.symm.trans heq

theorem revise_of_erase (h : act memory s.token = (memory', .erase))
    (hsplit : splitAfter s.token rest = some (inside, after)) :
    revise act memory (s :: rest) = trimEnd s.gap ++ revise act memory' after := by
  rw [revise, h]
  dsimp only
  split
  · next heq =>
    cases hsplit.symm.trans heq
    rfl
  · next heq => cases hsplit.symm.trans heq

end Segment

namespace Scan

variable {s : Segment} {rest : List Segment}

theorem splitElement_opening (h : s.token.kind = .opening) (depth : Nat) :
    splitElement depth (s :: rest) =
      (splitElement (depth + 1) rest).map fun (a, b) => (s :: a, b) := by
  simp [splitElement, h]

theorem splitElement_closing (h : s.token.kind = .closing) (depth : Nat) :
    splitElement (depth + 1) (s :: rest) =
      (splitElement depth rest).map fun (a, b) => (s :: a, b) := by
  simp [splitElement, h]

theorem splitElement_closing_zero (h : s.token.kind = .closing) :
    splitElement 0 (s :: rest) = some ([s], rest) := by
  simp [splitElement, h]

theorem splitElement_other (hopening : s.token.kind ≠ .opening) (hclosing : s.token.kind ≠ .closing)
    (depth : Nat) :
    splitElement depth (s :: rest) = (splitElement depth rest).map fun (a, b) => (s :: a, b) := by
  cases hkind : s.token.kind with
  | opening => exact absurd hkind hopening
  | closing => exact absurd hkind hclosing
  | _ => simp [splitElement, hkind]

end Scan

namespace Markup

/-! ## Segments of elements -/

variable {gap gap' : Text} {segments segments' : List Segment} {w : Markup}

/-- **The search for an end tag passes over markup.** -/
theorem Spans.split (h : w.Spans gap segments gap' segments') :
    ∃ own, segments = own ++ segments' ∧ gap ++ w.source = Segment.sourceAll own ++ gap' ∧
      ∀ depth, Scan.splitElement depth segments =
        (Scan.splitElement depth segments').map (Prod.map (own ++ ·) id) := by
  induction w generalizing gap segments gap' segments' with
  | nil =>
    obtain ⟨rfl, rfl⟩ := h
    refine ⟨[], rfl, by simp [Segment.sourceAll], fun depth => ?_⟩
    cases Scan.splitElement depth segments' <;> rfl
  | inert event hinert rest ih =>
    rw [Spans] at h
    split at h
    · obtain ⟨own, rfl, hsource, hsplit⟩ := ih h
      exact ⟨own, rfl, by rw [← hsource, source_inert, List.append_assoc], hsplit⟩
    · obtain ⟨token, others, rfl, htoken, htext, h⟩ := h
      obtain ⟨own, rfl, hsource, hsplit⟩ := ih h
      rw [List.nil_append] at hsource
      refine ⟨⟨gap, token⟩ :: own, rfl, ?_, fun depth => ?_⟩
      · simp [hsource, Segment.sourceAll, Segment.source, htext]
      · have hkind : token.kind ≠ .opening ∧ token.kind ≠ .closing := by
          rw [Token.isElement] at htoken
          constructor <;> intro heq <;> rw [heq] at htoken <;> cases htoken
        rw [Scan.splitElement_other hkind.1 hkind.2, hsplit, Option.map_map]
        rfl
  | empty content rest ih =>
    obtain ⟨token, others, rfl, htoken, h⟩ := h
    obtain ⟨own, rfl, hsource, hsplit⟩ := ih h
    rw [List.nil_append] at hsource
    refine ⟨⟨gap, token⟩ :: own, rfl, ?_, fun depth => ?_⟩
    · simp [hsource, Segment.sourceAll, Segment.source, htoken.text]
    · have hkind := htoken.kind
      rw [Scan.splitElement_other (by simp [hkind]) (by simp [hkind]), hsplit, Option.map_map]
      rfl
  | node content inside close rest ihinside ih =>
    obtain ⟨token, inner, gap₁, token', others, rfl, htoken, hinside, htoken', h⟩ := h
    obtain ⟨own₁, rfl, hsource₁, hsplit₁⟩ := ihinside hinside
    obtain ⟨own₂, rfl, hsource₂, hsplit₂⟩ := ih h
    rw [List.nil_append] at hsource₁ hsource₂
    refine ⟨⟨gap, token⟩ :: (own₁ ++ ⟨gap₁, token'⟩ :: own₂), by simp, ?_, fun depth => ?_⟩
    · simp [hsource₁, hsource₂, Segment.sourceAll, Segment.source, htoken.text, htoken'.text]
    · rw [Scan.splitElement_opening htoken.kind, hsplit₁, Scan.splitElement_closing htoken'.kind,
        hsplit₂, Option.map_map, Option.map_map, Option.map_map]
      congr 1
      funext pair
      simp [Prod.map]

/-- The segments inside and after an element. -/
theorem Spans.splitElement {token : Token} {others : List Segment} (hkind : token.kind = .closing)
    (h : w.Spans gap segments gap' (⟨gap', token⟩ :: others)) :
    ∃ inside, Scan.splitElement 0 segments = some (inside, others) ∧
      Segment.sourceAll inside = gap ++ w.source ++ token.text := by
  obtain ⟨own, -, hsource, hsplit⟩ := h.split
  refine ⟨own ++ [⟨gap', token⟩], ?_, ?_⟩
  · rw [hsplit, Scan.splitElement_closing_zero hkind]
    rfl
  · rw [hsource]
    simp [Segment.sourceAll, Segment.source]

/-! ## One element -/

section

variable {σ : Type} {act : σ → Token → σ × Action} {memory memory' : σ} {token token' : Token}
  {content close : Text} {inner others : List Segment} {inside : Markup}

theorem isStart_of_isToken (selfClosing : Bool)
    (h : IsToken token (.ofStart selfClosing) (.start selfClosing content)) :
    token.isStart = true := by
  rw [Token.isStart, h.kind]
  cases selfClosing <;> rfl

theorem IsToken.isStart_closing {event : Event} (h : IsToken token .closing event) :
    token.isStart = false := by
  rw [Token.isStart, h.kind]
  rfl

/-- Nothing stands inside an empty element. -/
theorem IsToken.splitAfter {event : Event} (h : IsToken token .selfClosing event)
    (others : List Segment) : Segment.splitAfter token others = some ([], others) := by
  rw [Segment.splitAfter, h.kind]
  rfl

/-- The markup inside an element stands before its end tag. -/
theorem Spans.splitAfter (h : inside.Spans [] inner gap (⟨gap, token'⟩ :: others))
    (htoken : IsToken token .opening (.opening content))
    (hclose : IsToken token' .closing (.closing close)) :
    ∃ own, Segment.splitAfter token inner = some (own, others) ∧
      Segment.sourceAll own = inside.source ++ (Event.closing close).source := by
  obtain ⟨own, hsplit, hown⟩ := h.splitElement hclose.kind
  refine ⟨own, ?_, by rw [hown, hclose.text, List.nil_append]⟩
  rw [Segment.splitAfter, if_pos htoken.kind, hsplit]

/-- An empty element that is passed over stays as it is. -/
theorem IsToken.revise_of_pass (h : IsToken token .selfClosing (.empty content))
    (hact : act memory token = (memory', .pass)) (gap : Text) (others : List Segment) :
    Segment.revise act memory (⟨gap, token⟩ :: others) =
      gap ++ (Event.empty content).source ++ Segment.revise act memory' others := by
  rw [Segment.revise_of_pass hact (h.splitAfter others), Segment.source, h.text, Segment.sourceAll]
  simp

theorem IsToken.revise_of_erase (h : IsToken token .selfClosing (.empty content))
    (hact : act memory token = (memory', .erase)) (gap : Text) (others : List Segment) :
    Segment.revise act memory (⟨gap, token⟩ :: others) =
      trimEnd gap ++ Segment.revise act memory' others :=
  Segment.revise_of_erase hact (h.splitAfter others)

/-- An element that is passed over stays as it is, whatever stands inside. -/
theorem Spans.revise_of_pass (h : inside.Spans [] inner gap' (⟨gap', token'⟩ :: others))
    (htoken : IsToken token .opening (.opening content))
    (hclose : IsToken token' .closing (.closing close))
    (hact : act memory token = (memory', .pass)) (gap : Text) :
    Segment.revise act memory (⟨gap, token⟩ :: inner) =
      gap ++ (Event.opening content).source ++ inside.source ++ (Event.closing close).source ++
        Segment.revise act memory' others := by
  obtain ⟨own, hsplit, hown⟩ := h.splitAfter htoken hclose
  rw [Segment.revise_of_pass hact hsplit, hown, Segment.source, htoken.text]
  simp

/-- An element is erased together with what stands inside. -/
theorem Spans.revise_of_erase (h : inside.Spans [] inner gap' (⟨gap', token'⟩ :: others))
    (htoken : IsToken token .opening (.opening content))
    (hclose : IsToken token' .closing (.closing close))
    (hact : act memory token = (memory', .erase)) (gap : Text) :
    Segment.revise act memory (⟨gap, token⟩ :: inner) =
      trimEnd gap ++ Segment.revise act memory' others := by
  obtain ⟨own, hsplit, -⟩ := h.splitAfter htoken hclose
  exact Segment.revise_of_erase hact hsplit

/-- A token that is kept stands behind its gap. -/
theorem revise_of_keep {event : Event} (htext : token.text = event.source)
    (hact : act memory token = (memory', .keep)) (gap : Text) (others : List Segment) :
    Segment.revise act memory (⟨gap, token⟩ :: others) =
      gap ++ event.source ++ Segment.revise act memory' others := by
  rw [Segment.revise_of_keep hact, Segment.source, htext]

end

/-! ## Revised markup -/

/-- Markup with a run of text before it. -/
def text (raw : Text) (rest : Markup) : Markup :=
  if raw = [] then rest else inert (.text raw) (Event.elementKind?_text raw) rest

@[simp]
theorem source_text (raw : Text) (rest : Markup) : (text raw rest).source = raw ++ rest.source := by
  unfold text
  split
  · next h => rw [h]; rfl
  · rfl

/-- The start tags of markup that do not stand inside of elements that are `shut`. -/
def exposed (shut : Text → Bool) : Markup → List (Bool × Text)
  | nil => []
  | inert _ _ rest => rest.exposed shut
  | empty content rest => (true, content) :: rest.exposed shut
  | node content inside _ rest =>
    (false, content) :: ((if shut content then [] else inside.exposed shut) ++ rest.exposed shut)

theorem mem_events_of_exposed {shut : Text → Bool} {selfClosing : Bool} {content : Text}
    (h : (selfClosing, content) ∈ w.exposed shut) : Event.start selfClosing content ∈ w.events := by
  induction w with
  | nil => cases h
  | inert event hinert rest ih => exact events_behind_inert (ih h)
  | empty other rest ih =>
    rcases List.mem_cons.mp h with heq | h
    · cases heq
      exact List.mem_cons_self
    · exact events_behind_empty (ih h)
  | node other inside close rest ihinside ih =>
    rcases List.mem_cons.mp h with heq | h
    · cases heq
      exact List.mem_cons_self
    · rcases List.mem_append.mp h with h | h
      · split at h
        · cases h
        · exact events_inside_node (ihinside h)
      · exact events_behind_node (ih h)

theorem exposed_behind_node {shut : Text → Bool} {content close : Text} {inside rest : Markup} :
    rest.exposed shut ⊆ (node content inside close rest).exposed shut :=
  fun _ h => List.mem_cons_of_mem _ (List.mem_append_right _ h)

theorem exposed_inside_node {shut : Text → Bool} {content close : Text} {inside rest : Markup}
    (h : shut content = false) :
    inside.exposed shut ⊆ (node content inside close rest).exposed shut := by
  intro x hx
  refine List.mem_cons_of_mem _ (List.mem_append_left _ ?_)
  rwa [if_neg (by simp [h])]

section

variable {σ : Type} (judge : σ → Bool → Text → σ × Verdict)

/-- Markup in which `judge` has decided about every element, and the text `gap`
before it. `judge` is given what is remembered of the elements so far, whether
an element is empty, and the content of its start tag. -/
def revise (memory : σ) (gap : Text) : Markup → σ × Markup
  | nil => (memory, text gap nil)
  | inert event isInert rest =>
    if event.isText then
      rest.revise memory (gap ++ event.source)
    else
      let next := rest.revise memory []
      (next.1, text gap (inert event isInert next.2))
  | empty content rest =>
    let judged := judge memory true content
    match judged.2 with
    | .write content' =>
      let next := rest.revise judged.1 []
      (next.1, text gap (empty content' next.2))
    | .pass =>
      let next := rest.revise judged.1 []
      (next.1, text gap (empty content next.2))
    | .erase => rest.revise judged.1 (trimEnd gap)
  | node content inside close rest =>
    let judged := judge memory false content
    match judged.2 with
    | .write content' =>
      let inner := inside.revise judged.1 []
      let next := rest.revise inner.1 []
      (next.1, text gap (node content' inner.2 close next.2))
    | .pass =>
      let next := rest.revise judged.1 []
      (next.1, text gap (node content inside close next.2))
    | .erase => rest.revise judged.1 (trimEnd gap)

section

variable {judge} {memory memory' : σ} {gap content content' close : Text} {inside rest : Markup}

attribute [local simp] revise

theorem revise_text {event : Event} (isInert : event.elementKind? = none) (h : event.isText = true) :
    (inert event isInert rest).revise judge memory gap =
      rest.revise judge memory (gap ++ event.source) := by
  simp [h]

theorem revise_inert {event : Event} (isInert : event.elementKind? = none)
    (h : event.isText = false) :
    (inert event isInert rest).revise judge memory gap =
      ((rest.revise judge memory []).1,
        text gap (inert event isInert (rest.revise judge memory []).2)) := by
  simp [h]

theorem revise_empty_of_write (h : judge memory true content = (memory', .write content')) :
    (empty content rest).revise judge memory gap =
      ((rest.revise judge memory' []).1, text gap (empty content' (rest.revise judge memory' []).2)) := by
  simp [h]

theorem revise_empty_of_pass (h : judge memory true content = (memory', .pass)) :
    (empty content rest).revise judge memory gap =
      ((rest.revise judge memory' []).1, text gap (empty content (rest.revise judge memory' []).2)) := by
  simp [h]

theorem revise_empty_of_erase (h : judge memory true content = (memory', .erase)) :
    (empty content rest).revise judge memory gap = rest.revise judge memory' (trimEnd gap) := by
  simp [h]

theorem revise_node_of_write (h : judge memory false content = (memory', .write content')) :
    (node content inside close rest).revise judge memory gap =
      ((rest.revise judge (inside.revise judge memory' []).1 []).1,
        text gap (node content' (inside.revise judge memory' []).2 close
          (rest.revise judge (inside.revise judge memory' []).1 []).2)) := by
  simp [h]

theorem revise_node_of_pass (h : judge memory false content = (memory', .pass)) :
    (node content inside close rest).revise judge memory gap =
      ((rest.revise judge memory' []).1,
        text gap (node content inside close (rest.revise judge memory' []).2)) := by
  simp [h]

theorem revise_node_of_erase (h : judge memory false content = (memory', .erase)) :
    (node content inside close rest).revise judge memory gap =
      rest.revise judge memory' (trimEnd gap) := by
  simp [h]

end

/-- Whether a decision about tokens is the one about the elements that they
start. -/
structure Follows (act : σ → Token → σ × Action) (w : Markup) : Prop where
  others : ∀ memory token, token.isStart = false → act memory token = (memory, .keep)
  starts : ∀ memory selfClosing content token, Event.start selfClosing content ∈ w.events →
    IsToken token (.ofStart selfClosing) (.start selfClosing content) →
    act memory token =
      ((judge memory selfClosing content).1, (judge memory selfClosing content).2.action selfClosing)

variable {judge} {act : σ → Token → σ × Action}

/-- The same with elements that are `shut`: the judge passes over them, and nothing is
asked of what stands inside. -/
structure FollowsOutside (shut : Text → Bool) (judge : σ → Bool → Text → σ × Verdict)
    (act : σ → Token → σ × Action) (w : Markup) : Prop where
  others : ∀ memory token, token.isStart = false → act memory token = (memory, .keep)
  pass : ∀ memory content, shut content = true → (judge memory false content).2 = .pass
  starts : ∀ memory selfClosing content token, (selfClosing, content) ∈ w.exposed shut →
    IsToken token (.ofStart selfClosing) (.start selfClosing content) →
    act memory token =
      ((judge memory selfClosing content).1, (judge memory selfClosing content).2.action selfClosing)

variable {shut : Text → Bool}

theorem FollowsOutside.mono {w' : Markup} (h : FollowsOutside shut judge act w)
    (hsub : w'.exposed shut ⊆ w.exposed shut) : FollowsOutside shut judge act w' :=
  ⟨h.others, h.pass, fun memory selfClosing content token hmem =>
    h.starts memory selfClosing content token (hsub hmem)⟩

theorem Follows.outside (h : Follows judge act w) :
    FollowsOutside (fun _ => false) judge act w :=
  ⟨h.others, fun _ _ hshut => Bool.noConfusion hshut, fun memory selfClosing content token hmem =>
    h.starts memory selfClosing content token (mem_events_of_exposed hmem)⟩

/-- Text that was kept is not trimmed again with the text behind it. -/
theorem trimEnd_done {done : Text} (hdone : trimEnd done = done) (gap : Text) :
    done ++ trimEnd gap = trimEnd (done ++ gap) := by
  rw [trimEnd_append]
  split
  · next h => rw [h, List.append_nil, hdone]
  · rfl

/-- Revising the segments of markup gives the text of the revised markup. The text
`done` is what stays of elements that went, and of the text before them. -/
def RevisesAs (judge : σ → Bool → Text → σ × Verdict) (act : σ → Token → σ × Action) (w : Markup)
    (gap : Text) (segments : List Segment) (gap' : Text) (segments' : List Segment) : Prop :=
  ∀ ⦃done : Text⦄, trimEnd done = done → ∀ memory : σ,
    ∃ written, (w.revise judge memory (done ++ gap)).2.source = written ++ gap' ∧
      done ++ Segment.revise act memory segments =
        written ++ Segment.revise act (w.revise judge memory (done ++ gap)).1 segments'

namespace RevisesAs

variable {rest inside : Markup} {inner others : List Segment} {token token' : Token}
  {content close gap₁ : Text}

/-- Directly behind a token nothing is pending. -/
theorem behind (h : RevisesAs judge act w [] segments gap' segments') (memory : σ) :
    ∃ written, (w.revise judge memory []).2.source = written ++ gap' ∧
      Segment.revise act memory segments =
        written ++ Segment.revise act (w.revise judge memory []).1 segments' := by
  have hnil : trimEnd [] = [] := rfl
  obtain ⟨written, hsource, hwritten⟩ := h hnil memory
  exact ⟨written, hsource, hwritten⟩

theorem nil (judge : σ → Bool → Text → σ × Verdict) (act : σ → Token → σ × Action) (gap : Text)
    (segments : List Segment) : RevisesAs judge act nil gap segments gap segments := by
  intro done _ memory
  exact ⟨done, by simp [Markup.revise], rfl⟩

theorem text {event : Event} (hinert : event.elementKind? = none) (htext : event.isText = true)
    (hrest : RevisesAs judge act rest (gap ++ event.source) segments gap' segments') :
    RevisesAs judge act (inert event hinert rest) gap segments gap' segments' := by
  intro done hdone memory
  rw [revise_text hinert htext, List.append_assoc]
  exact hrest hdone memory

theorem inert {event : Event} (hinert : event.elementKind? = none) (htext : event.isText = false)
    (htoken : token.text = event.source) (hkeep : ∀ memory, act memory token = (memory, .keep))
    (hrest : RevisesAs judge act rest [] others gap' segments') :
    RevisesAs judge act (inert event hinert rest) gap (⟨gap, token⟩ :: others) gap' segments' := by
  intro done _ memory
  rw [revise_inert hinert htext]
  obtain ⟨written, hsource, hwritten⟩ := hrest.behind memory
  refine ⟨done ++ gap ++ event.source ++ written, by simp [hsource], ?_⟩
  rw [revise_of_keep htoken (hkeep memory), hwritten]
  simp

theorem empty (htoken : IsToken token .selfClosing (.empty content))
    (hact : ∀ memory, act memory token =
      ((judge memory true content).1, (judge memory true content).2.action true))
    (hrest : RevisesAs judge act rest [] others gap' segments') :
    RevisesAs judge act (empty content rest) gap (⟨gap, token⟩ :: others) gap' segments' := by
  intro done hdone memory
  specialize hact memory
  rcases hjudge : judge memory true content with ⟨memory', verdict⟩
  rw [hjudge] at hact
  obtain ⟨written, hsource, hwritten⟩ := hrest.behind memory'
  cases verdict with
  | write content' =>
    rw [revise_empty_of_write hjudge]
    refine ⟨done ++ gap ++ (Event.empty content').source ++ written, by simp [hsource], ?_⟩
    rw [Segment.revise_of_replace hact, hwritten]
    simp [Event.start]
  | pass =>
    rw [revise_empty_of_pass hjudge]
    refine ⟨done ++ gap ++ (Event.empty content).source ++ written, by simp [hsource], ?_⟩
    rw [htoken.revise_of_pass hact, hwritten]
    simp
  | erase =>
    obtain ⟨written, hsource, hwritten⟩ := hrest (trimEnd_trimEnd (done ++ gap)) memory'
    rw [List.append_nil] at hsource hwritten
    rw [revise_empty_of_erase hjudge]
    refine ⟨written, hsource, ?_⟩
    rw [htoken.revise_of_erase hact, ← List.append_assoc, trimEnd_done hdone]
    exact hwritten

theorem node (htoken : IsToken token .opening (.opening content))
    (hact : ∀ memory, act memory token =
      ((judge memory false content).1, (judge memory false content).2.action false))
    (hspans : inside.Spans [] inner gap₁ (⟨gap₁, token'⟩ :: others))
    (hinside : (∀ memory, (judge memory false content).2 = .pass) ∨
      RevisesAs judge act inside [] inner gap₁ (⟨gap₁, token'⟩ :: others))
    (hclose : IsToken token' .closing (.closing close))
    (hkeep : ∀ memory, act memory token' = (memory, .keep))
    (hrest : RevisesAs judge act rest [] others gap' segments') :
    RevisesAs judge act (node content inside close rest) gap (⟨gap, token⟩ :: inner) gap'
      segments' := by
  intro done hdone memory
  specialize hact memory
  rcases hjudge : judge memory false content with ⟨memory', verdict⟩
  rw [hjudge] at hact
  cases verdict with
  | write content' =>
    rw [revise_node_of_write hjudge]
    have hinside := hinside.resolve_left fun hpass => by
      cases (congrArg Prod.snd hjudge).symm.trans (hpass memory)
    obtain ⟨written₁, hsource₁, hwritten₁⟩ := hinside.behind memory'
    obtain ⟨written, hsource, hwritten⟩ := hrest.behind (inside.revise judge memory' []).1
    refine ⟨done ++ gap ++ (Event.opening content').source ++ written₁ ++ gap₁ ++
      (Event.closing close).source ++ written, by simp [hsource, hsource₁], ?_⟩
    rw [Segment.revise_of_replace hact, hwritten₁, revise_of_keep hclose.text (hkeep _), hwritten]
    simp [Event.start]
  | pass =>
    rw [revise_node_of_pass hjudge]
    obtain ⟨written, hsource, hwritten⟩ := hrest.behind memory'
    refine ⟨done ++ gap ++ (Event.opening content).source ++ inside.source ++
      (Event.closing close).source ++ written, by simp [hsource], ?_⟩
    rw [hspans.revise_of_pass htoken hclose hact, hwritten]
    simp
  | erase =>
    rw [revise_node_of_erase hjudge]
    obtain ⟨written, hsource, hwritten⟩ := hrest (trimEnd_trimEnd (done ++ gap)) memory'
    rw [List.append_nil] at hsource hwritten
    refine ⟨written, hsource, ?_⟩
    rw [hspans.revise_of_erase htoken hclose hact, ← List.append_assoc, trimEnd_done hdone]
    exact hwritten

end RevisesAs

/-- **Revising the segments of markup gives the text of the revised markup.** -/
theorem Spans.revisesAs (hfollows : FollowsOutside shut judge act w)
    (h : w.Spans gap segments gap' segments') :
    RevisesAs judge act w gap segments gap' segments' := by
  induction w generalizing gap segments gap' segments' with
  | nil =>
    obtain ⟨rfl, rfl⟩ := h
    exact .nil judge act _ _
  | inert event hinert rest ih =>
    have hrest : FollowsOutside shut judge act rest := hfollows.mono (List.Subset.refl _)
    rw [Spans] at h
    split at h
    · next htext => exact .text hinert htext (ih hrest h)
    · next htext =>
      obtain ⟨token, others, rfl, htoken, hsource, h⟩ := h
      have hkeep := fun memory => hfollows.others memory token (Token.isStart_eq_false htoken)
      exact .inert hinert (by simpa using htext) hsource hkeep (ih hrest h)
  | empty content rest ih =>
    have hrest : FollowsOutside shut judge act rest := hfollows.mono (List.subset_cons_self _ _)
    obtain ⟨token, others, rfl, htoken, h⟩ := h
    have hact := fun memory =>
      hfollows.starts memory true content token List.mem_cons_self htoken
    exact .empty htoken hact (ih hrest h)
  | node content inside close rest ihinside ih =>
    have hrest : FollowsOutside shut judge act rest := hfollows.mono exposed_behind_node
    obtain ⟨token, inner, gap₁, token', others, rfl, htoken, hinside, hclose, h⟩ := h
    have hact := fun memory =>
      hfollows.starts memory false content token List.mem_cons_self htoken
    have hkeep := fun memory => hfollows.others memory token' hclose.isStart_closing
    refine .node htoken hact hinside ?_ hclose hkeep (ih hrest h)
    -- What stands inside of an element that is shut does not matter.
    cases hshut : shut content with
    | true => exact Or.inl fun memory => hfollows.pass memory content hshut
    | false => exact Or.inr (ihinside (hfollows.mono (exposed_inside_node hshut)) hinside)

/-- **Revising the text of markup gives the text of the revised markup.** -/
theorem reviseText_source_outside (hlexed : w.Lexed) (hscan : w.Scannable)
    (hfollows : FollowsOutside shut judge act w) (memory : σ) :
    reviseText act memory w.source = ⟨(w.revise judge memory []).2.source, true⟩ := by
  obtain ⟨hspans, hclean⟩ := spans_scan hlexed hscan
  obtain ⟨written, hsource, hwritten⟩ := (hspans.revisesAs hfollows).behind memory
  rw [Segment.revise_nil, List.append_nil] at hwritten
  rw [reviseText, hclean, hwritten, ← hsource]

theorem reviseText_source (hlexed : w.Lexed) (hscan : w.Scannable) (hfollows : Follows judge act w)
    (memory : σ) :
    reviseText act memory w.source = ⟨(w.revise judge memory []).2.source, true⟩ :=
  reviseText_source_outside hlexed hscan hfollows.outside memory

end

/-! ## The root -/

/-- The first element in markup: whether it is empty, and the content of its
start tag. -/
def first? : Markup → Option (Bool × Text)
  | nil => none
  | inert _ _ rest => rest.first?
  | empty content _ => some (true, content)
  | node content _ _ _ => some (false, content)

/-- Markup with another content of its first start tag. -/
def setFirst (content : Text) : Markup → Markup
  | nil => nil
  | inert event isInert rest => inert event isInert (rest.setFirst content)
  | empty _ rest => empty content rest
  | node _ inside close rest => node content inside close rest

/-- The events of markup up to its first start tag. -/
def front : Markup → List Event
  | nil => []
  | inert event _ rest => event :: rest.front
  | empty content _ => [.empty content]
  | node content _ _ _ => [.opening content]

/-- Markup that a scan cuts off as it is up to the first start tag. -/
def Opens (w : Markup) : Prop :=
  ∀ event ∈ w.front, event.isText = false → event.Scannable

theorem front_subset (w : Markup) : w.front ⊆ w.events := by
  induction w with
  | nil => exact List.Subset.refl _
  | inert event hinert rest ih => exact List.cons_subset_cons event ih
  | empty content rest ih => simp [front, events]
  | node content inside close rest ihinside ih => simp [front, events]

theorem Scannable.opens (h : w.Scannable) : w.Opens := fun event hmem =>
  h event (w.front_subset hmem)

/-- A scan divides at the first element token. -/
theorem splitAtElement_of_element {event : Event} (h : event.Scannable) {kind : TokenKind}
    (hkind : event.elementKind? = some kind) (offset : Nat) {depth depth' : Nat}
    (hdepth : kind.depthAfter depth = some depth') (helement : kind.isElement = true) {gap : Text}
    (hgap : '<' ∉ gap) (rest : Text) :
    ∃ token after, IsToken token kind event ∧
      let s := Scan.scanFrom offset depth (gap ++ (event.source ++ rest))
      Segment.splitAtElement s.segments = some (gap, token, after) ∧
        Segment.sourceAll after ++ s.tail = rest := by
  obtain ⟨token, next, htoken, hscan⟩ := scanFrom_element h hkind offset hdepth hgap rest
  refine ⟨token, (Scan.scanFrom next depth' rest).segments, htoken, ?_, ?_⟩
  · rw [hscan, Segment.splitAtElement, if_pos (by rw [Token.isElement, htoken.kind, helement])]
  · rw [hscan]
    exact Scan.source_scanFrom next depth' rest

/-- The first element token of markup. What follows does not matter. -/
theorem Opens.splitAtElement (hopens : w.Opens) (hlexed : w.Lexed) {selfClosing : Bool}
    {content : Text} (hfirst : w.first? = some (selfClosing, content)) (offset : Nat) {gap : Text}
    (hgap : '<' ∉ gap) :
    ∃ before token after, IsToken token (.ofStart selfClosing) (.start selfClosing content) ∧
      let s := Scan.scanFrom offset 0 (gap ++ w.source)
      Segment.splitAtElement s.segments = some (before, token, after) ∧
        ∀ content', gap ++ (w.setFirst content').source =
          before ++ (Event.start selfClosing content').source ++
            (Segment.sourceAll after ++ s.tail) := by
  induction w generalizing offset gap with
  | nil => cases hfirst
  | inert event hinert rest ih =>
    obtain ⟨hevent, hopens⟩ := List.forall_mem_cons.mp hopens
    obtain ⟨hwhole, -, hlexed⟩ := hlexed
    rw [source_inert]
    cases htext : event.isText with
    | true =>
      have hgap' : '<' ∉ gap ++ event.source := by
        cases event with
        | text raw => simpa [hgap, Event.source] using hwhole.2
        | _ => cases htext
      obtain ⟨before, token, after, htoken, hsplit, hsource⟩ := ih hopens hlexed hfirst offset hgap'
      rw [List.append_assoc] at hsplit hsource
      refine ⟨before, token, after, htoken, hsplit, fun content' => ?_⟩
      rw [← hsource, setFirst, source_inert, List.append_assoc]
    | false =>
      obtain ⟨inertToken, next, hinertToken, hinertText, hscan⟩ :=
        scanFrom_inert (hevent htext) hinert offset 0 hgap rest.source
      obtain ⟨before, token, after, htoken, hsplit, hsource⟩ :=
        ih hopens hlexed hfirst next List.not_mem_nil
      rw [List.nil_append] at hsplit hsource
      rw [hscan]
      refine ⟨gap ++ event.source ++ before, token, after, htoken, ?_, fun content' => ?_⟩
      · rw [Segment.splitAtElement, if_neg (by simp [hinertToken]), hsplit]
        simp [Segment.source, hinertText]
      · have hsource := hsource content'
        rw [List.nil_append] at hsource
        simp [setFirst, hsource]
  | empty content rest ih =>
    cases hfirst
    have hevent := hopens _ List.mem_cons_self rfl
    obtain ⟨token, after, htoken, hsplit, hsource⟩ :=
      splitAtElement_of_element hevent rfl offset rfl rfl hgap rest.source
    rw [source_empty]
    exact ⟨gap, token, after, htoken, hsplit, fun content' => by
      rw [hsource]; simp [setFirst, Event.start]⟩
  | node content inside close rest ihinside ih =>
    cases hfirst
    have hevent := hopens _ List.mem_cons_self rfl
    obtain ⟨token, after, htoken, hsplit, hsource⟩ :=
      splitAtElement_of_element hevent rfl offset rfl rfl hgap
        (inside.source ++ ((Event.closing close).source ++ rest.source))
    have hnode : (node content inside close rest).source = (Event.opening content).source ++
        (inside.source ++ ((Event.closing close).source ++ rest.source)) := by
      simp
    rw [hnode]
    exact ⟨gap, token, after, htoken, hsplit, fun content' => by
      rw [hsource]; simp [setFirst, Event.start]⟩

/-- **The root of a text is the first element of its markup.** Another start tag stands
in the place of the old one. -/
theorem splitAtRoot_source (hlexed : w.Lexed) (hopens : w.Opens) {selfClosing : Bool}
    {content : Text} (hfirst : w.first? = some (selfClosing, content)) :
    ∃ split, splitAtRoot w.source = some split ∧
      IsToken split.root (.ofStart selfClosing) (.start selfClosing content) ∧
      ∀ content', (w.setFirst content').source =
        split.before ++ (Event.start selfClosing content').source ++ split.after := by
  obtain ⟨before, token, after, htoken, hsplit, hsource⟩ :=
    hopens.splitAtElement hlexed hfirst 0 List.not_mem_nil
  have hstart := isStart_of_isToken selfClosing htoken
  have hscan : Segment.splitAtElement (scan w.source).segments = some (before, token, after) := hsplit
  exact ⟨⟨before, token, Segment.sourceAll after ++ (scan w.source).tail⟩,
    by simp [splitAtRoot, hscan, hstart], htoken, hsource⟩

/-- **Editing the root of a text edits the first element of its markup.** -/
theorem editRoot_source (hlexed : w.Lexed) (hopens : w.Opens) {selfClosing : Bool}
    {content : Text} (hfirst : w.first? = some (selfClosing, content)) {edit : Token → Option Text}
    (result : Option Text)
    (hedit : ∀ token,
      IsToken token (.ofStart selfClosing) (.start selfClosing content) →
      edit token = result.map fun content' => (Event.start selfClosing content').source) :
    editRoot edit w.source = result.map fun content' => (w.setFirst content').source := by
  obtain ⟨split, hroot, htoken, hsource⟩ := splitAtRoot_source hlexed hopens hfirst
  rw [editRoot, hroot]
  dsimp only [bind, Option.bind]
  rw [hedit split.root htoken]
  cases result with
  | none => rfl
  | some content' => exact congrArg some (hsource content').symm

end Markup

end SkinMarkup
