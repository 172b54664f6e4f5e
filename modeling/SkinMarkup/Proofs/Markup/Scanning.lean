import SkinMarkup.Proofs.Markup.Basic
import SkinMarkup.Proofs.TagText.StartTag

/-!
# Scanning markup

A scan cuts the events of markup off as its tokens, if it finds the same ends of
tags as the lexer and no document type: such events are `Scannable`. The gaps
are the runs of text between them. `Markup.Spans` says which segments of a scan
belong to a part of a document, and `Markup.spans_scan` that the segments of a
whole document are those of its markup.
-/

namespace SkinMarkup

namespace Scan

/-! ## Tokens are cut off wherever they stand -/

variable {t word text rest before after : Text} {kind kind' : TokenKind}

theorem cutElement_append {previous : Char} {quote : Option Char}
    (h : cutElement previous quote t = some (before, after)) (more : Text) :
    cutElement previous quote (t ++ more) = some (before, after ++ more) := by
  induction t generalizing previous quote before with
  | nil => simp [cutElement] at h
  | cons c cs ih =>
    cases quote with
    | none =>
      by_cases hc : c = '>'
      · simp only [cutElement, if_pos hc, Option.some.injEq, Prod.mk.injEq] at h
        obtain ⟨rfl, rfl⟩ := h
        simp only [List.cons_append, cutElement, if_pos hc]
      · simp only [cutElement, if_neg hc, Option.map_eq_some_iff, Prod.mk.injEq, Prod.exists] at h
        obtain ⟨s, u, hcut, rfl, rfl⟩ := h
        simp only [List.cons_append, cutElement, if_neg hc, ih hcut, Option.map_some]
    | some q =>
      simp only [cutElement, Option.map_eq_some_iff, Prod.mk.injEq, Prod.exists] at h
      obtain ⟨s, u, hcut, rfl, rfl⟩ := h
      simp only [List.cons_append, cutElement, ih hcut, Option.map_some]

theorem cutEnclosed_append {opener closer : Text} (hcloser : closer ≠ [])
    (h : cutEnclosed kind opener closer t = some (kind', text, rest)) (more : Text) :
    cutEnclosed kind opener closer (t ++ more) = some (kind', text, rest ++ more) := by
  simp only [cutEnclosed, Option.map_eq_some_iff, Prod.mk.injEq, Prod.exists] at h ⊢
  obtain ⟨content, after, hcut, rfl, rfl, rfl⟩ := h
  refine ⟨content, after ++ more, ?_, rfl, rfl, rfl⟩
  rw [cutAtWord_eq_some hcut, List.append_assoc, List.append_assoc]
  exact cutAtWord_of_cut hcloser hcut _

theorem mem_of_cutEnclosed {opener closer : Text} (hcloser : '>' ∈ closer)
    (h : cutEnclosed kind opener closer t = some (kind', text, rest)) : '>' ∈ t := by
  simp only [cutEnclosed, Option.map_eq_some_iff, Prod.mk.injEq, Prod.exists] at h
  obtain ⟨content, after, hcut, rfl, rfl, rfl⟩ := h
  rw [cutAtWord_eq_some hcut]
  simp [hcloser]

/-- A text with a `>` that does not start with a word without one does not start
with it after more text was added either. -/
theorem after?_append_of_none (h : after? word t = none) (hword : '>' ∉ word) (ht : '>' ∈ t)
    (more : Text) : after? word (t ++ more) = none := by
  rw [after?_eq_none_iff] at h ⊢
  intro hstart
  rcases List.prefix_or_prefix_of_prefix hstart (List.prefix_append t more) with hshort | hlong
  · exact h hshort
  · exact hword (hlong.subset ht)

theorem after?_append_of_some (h : after? word t = some rest) (more : Text) :
    after? word (t ++ more) = some (rest ++ more) := by
  rw [after?_eq_some h, List.append_assoc]
  exact after?_append word (rest ++ more)

/-- **A token is cut off in the same way if more text follows.** -/
theorem cutToken_append (h : cutToken t = some (kind, text, rest)) (more : Text) :
    cutToken (t ++ more) = some (kind, text, rest ++ more) := by
  unfold cutToken at h
  split at h
  · next inner hafter =>
    simp only [cutToken, after?_append_of_some hafter]
    exact cutEnclosed_append (by simp) h more
  · next hcomment =>
    split at h
    · next inner hafter =>
      have hmem : '>' ∈ t := by
        rw [after?_eq_some hafter]
        exact List.mem_append_right _ (mem_of_cutEnclosed (by simp) h)
      simp only [cutToken, after?_append_of_none hcomment (by decide) hmem,
        after?_append_of_some hafter]
      exact cutEnclosed_append (by simp) h more
    · next hcdata =>
      split at h
      · next inner hafter =>
        have hmem : '>' ∈ t := by
          rw [after?_eq_some hafter]
          exact List.mem_append_right _ (mem_of_cutEnclosed (by simp) h)
        simp only [cutToken, after?_append_of_none hcomment (by decide) hmem,
          after?_append_of_none hcdata (by decide) hmem, after?_append_of_some hafter]
        exact cutEnclosed_append (by simp) h more
      · next hinstruction =>
        split at h
        · next inner hafter =>
          have hmem : '>' ∈ t := by
            rw [after?_eq_some hafter]
            exact List.mem_append_right _ (mem_of_cutEnclosed (by simp) h)
          simp only [cutToken, after?_append_of_none hcomment (by decide) hmem,
            after?_append_of_none hcdata (by decide) hmem,
            after?_append_of_none hinstruction (by decide) hmem, after?_append_of_some hafter]
          exact cutEnclosed_append (by simp) h more
        · next hdeclaration =>
          simp only [cutTagToken, Option.map_eq_some_iff, Prod.mk.injEq, Prod.exists] at h
          obtain ⟨content, after, hcut, rfl, rfl, rfl⟩ := h
          have hmem : '>' ∈ t := by
            rw [cutElement_eq_some hcut]
            simp
          simp only [cutToken, after?_append_of_none hcomment (by decide) hmem,
            after?_append_of_none hcdata (by decide) hmem,
            after?_append_of_none hinstruction (by decide) hmem,
            after?_append_of_none hdeclaration (by decide) hmem, cutTagToken,
            cutElement_append hcut more, Option.map_some]

theorem Cuts.append {event : Event} (h : Cuts t event rest) (more : Text) :
    Cuts (t ++ more) event (rest ++ more) := by
  obtain ⟨kind, hcut, hkind⟩ := h
  exact ⟨kind, cutToken_append hcut more, hkind⟩

end Scan

namespace Event

/-- Markup that a scan cuts off as it is. -/
def Scannable (event : Event) : Prop :=
  ∃ cs, event.source = '<' :: cs ∧ Scan.Cuts cs event []

variable {event : Event} {content : Text}

theorem Whole.nextMarkup_eq (h : event.Whole) (htext : event.isText = false) :
    ∃ cs, event.source = '<' :: cs ∧ nextMarkup cs = .ok (event, []) := by
  have hwhole : ∃ cs, event.source ++ [] = '<' :: cs ∧ next '<' cs = .ok (event, []) := by
    cases event with
    | text raw => cases htext
    | _ => exact h []
  obtain ⟨cs, hcs, hnext⟩ := hwhole
  rw [next, if_pos rfl] at hnext
  exact ⟨cs, by simpa using hcs, hnext⟩

/-- Whole markup is cut off by a scan, unless it is a document type or has
escaped quotes. -/
theorem Whole.scannable (h : event.Whole) (htext : event.isText = false)
    (hdoctype : NoDoctype event.source) (hquote : NoEscapedQuote event.source) :
    event.Scannable := by
  obtain ⟨cs, hcs, hnext⟩ := h.nextMarkup_eq htext
  rw [hcs] at hdoctype hquote
  exact ⟨cs, hcs, Scan.cuts_of_nextMarkup hdoctype hquote hnext⟩

end Event

theorem noEscapedQuote_of_not_mem {t : Text} (h : '\\' ∉ t) : NoEscapedQuote t := by
  have hno : ∀ q : Char, containsWord ['\\', q] t = false := by
    intro q
    rw [Bool.eq_false_iff, ne_eq, containsWord_iff]
    exact fun hpart => h (hpart.subset List.mem_cons_self)
  exact ⟨hno _, hno _⟩

namespace Event

variable {content : Text} {selfClosing : Bool}

theorem elementKind?_start (selfClosing : Bool) (content : Text) :
    (start selfClosing content).elementKind? =
      some (.ofStart selfClosing) := by
  cases selfClosing <;> rfl

/-- A start tag without a backslash is cut off by a scan. -/
theorem Whole.scannable_start (h : (start selfClosing content).Whole) (hcontent : '\\' ∉ content) :
    (start selfClosing content).Scannable := by
  have htext : (start selfClosing content).isText = false := by cases selfClosing <;> rfl
  obtain ⟨cs, hcs, hnext⟩ := h.nextMarkup_eq htext
  have hquote : NoEscapedQuote (start selfClosing content).source := by
    apply noEscapedQuote_of_not_mem
    cases selfClosing <;> simp [start, source, hcontent]
  have hstarts : Starts cs := by
    refine starts_of_nextMarkup hnext ?_ ?_
    all_goals cases selfClosing <;> rintro ⟨⟩
  rw [nextMarkup_eq_nextOpening hstarts] at hnext
  rw [hcs] at hquote
  exact ⟨cs, hcs, Scan.cuts_of_nextOpening hquote hstarts hnext⟩

/-- Wherever it stands, scannable markup is a token. -/
theorem Scannable.cuts {event : Event} (h : event.Scannable) (rest : Text) :
    ∃ cs, event.source ++ rest = '<' :: cs ∧ Scan.Cuts cs event rest := by
  obtain ⟨cs, hcs, hcuts⟩ := h
  exact ⟨cs ++ rest, by rw [hcs]; rfl, hcuts.append rest⟩

end Event

namespace Scan

variable {cs text rest gap : Text} {kind : TokenKind} {depth depth' : Nat}

/-- One token after a gap. -/
theorem scanFrom_append_cons (offset : Nat) (hgap : '<' ∉ gap)
    (hcut : cutToken cs = some (kind, text, rest)) (hdepth : kind.depthAfter depth = some depth') :
    scanFrom offset depth (gap ++ '<' :: cs) =
      let start := offset + width gap
      let others := scanFrom (start + width text) depth' rest
      { others with segments := ⟨gap, ⟨kind, start, text⟩⟩ :: others.segments } := by
  have hin : ∀ c ∈ gap, (c != '<') = true := by
    intro c hc
    rw [bne_iff_ne]
    rintro rfl
    exact hgap hc
  have hend : ∀ c ∈ ('<' :: cs).head?, (c != '<') = false := by
    rintro c ⟨⟩
    rfl
  rw [scanFrom_of_cutToken (dropWhile_append_eq_right hin hend) hcut hdepth,
    takeWhile_append_eq_left hin hend]

theorem scanFrom_gap (offset depth : Nat) (hgap : '<' ∉ gap) :
    scanFrom offset depth gap = ⟨[], gap, depth, none⟩ := by
  apply scanFrom_of_dropWhile_eq_nil
  rw [List.dropWhile_eq_nil_iff]
  intro c hc
  rw [bne_iff_ne]
  rintro rfl
  exact hgap hc

end Scan

namespace Markup

/-- Markup whose events a scan cuts off as they are. -/
def Scannable (w : Markup) : Prop :=
  ∀ event ∈ w.events, event.isText = false → event.Scannable

/-- A token of an element. -/
structure IsToken (token : Token) (kind : TokenKind) (event : Event) : Prop where
  kind : token.kind = kind
  text : token.text = event.source

/-- Whether the segments of a scan start with those of markup. Before the markup
`gap` is pending, and behind it `gap'`; the other segments are `segments'`. -/
def Spans (gap : Text) (segments : List Segment) (gap' : Text) (segments' : List Segment) :
    Markup → Prop
  | nil => gap' = gap ∧ segments' = segments
  | inert event _ rest =>
    if event.isText then
      rest.Spans (gap ++ event.source) segments gap' segments'
    else
      ∃ token others, segments = ⟨gap, token⟩ :: others ∧ token.isElement = false ∧
        token.text = event.source ∧ rest.Spans [] others gap' segments'
  | empty content rest =>
    ∃ token others, segments = ⟨gap, token⟩ :: others ∧
      IsToken token .selfClosing (.empty content) ∧ rest.Spans [] others gap' segments'
  | node content inside close rest =>
    ∃ token inner gap₁ token' others, segments = ⟨gap, token⟩ :: inner ∧
      IsToken token .opening (.opening content) ∧
      inside.Spans [] inner gap₁ (⟨gap₁, token'⟩ :: others) ∧
      IsToken token' .closing (.closing close) ∧ rest.Spans [] others gap' segments'

/-! ## The segments of a scan -/

theorem scanFrom_inert {event : Event} (h : event.Scannable) (hinert : event.elementKind? = none)
    (offset depth : Nat) {gap : Text} (hgap : '<' ∉ gap) (rest : Text) :
    ∃ token next, token.isElement = false ∧ token.text = event.source ∧
      Scan.scanFrom offset depth (gap ++ (event.source ++ rest)) =
        let others := Scan.scanFrom next depth rest
        { others with segments := ⟨gap, token⟩ :: others.segments } := by
  obtain ⟨cs, hcs, kind, hcut, hkind⟩ := h.cuts rest
  have helement : kind.isElement = false := by
    cases hk : kind.isElement with
    | false => rfl
    | true =>
      rw [hinert, hk] at hkind
      cases hkind
  have hdepth : kind.depthAfter depth = some depth := by
    cases kind with
    | opening => cases helement
    | closing => cases helement
    | selfClosing => cases helement
    | _ => rfl
  rw [hcs]
  exact ⟨⟨kind, offset + width gap, event.source⟩, _, helement, rfl,
    Scan.scanFrom_append_cons offset hgap hcut hdepth⟩

theorem scanFrom_element {event : Event} (h : event.Scannable) {kind : TokenKind}
    (hkind : event.elementKind? = some kind) (offset : Nat) {depth depth' : Nat}
    (hdepth : kind.depthAfter depth = some depth') {gap : Text} (hgap : '<' ∉ gap) (rest : Text) :
    ∃ token next, IsToken token kind event ∧
      Scan.scanFrom offset depth (gap ++ (event.source ++ rest)) =
        let others := Scan.scanFrom next depth' rest
        { others with segments := ⟨gap, token⟩ :: others.segments } := by
  obtain ⟨cs, hcs, kind', hcut, hkind'⟩ := h.cuts rest
  obtain rfl : kind' = kind := by
    rw [hkind] at hkind'
    split at hkind'
    · cases hkind'
      rfl
    · cases hkind'
  rw [hcs]
  exact ⟨_, _, ⟨rfl, rfl⟩, Scan.scanFrom_append_cons offset hgap hcut hdepth⟩

/-- Wherever the markup stands, a scan cuts its segments off and goes on behind it. -/
def IsCutOff (w : Markup) : Prop :=
  ∀ (offset depth : Nat) ⦃gap : Text⦄, '<' ∉ gap → ∀ rest : Text, ∃ next gap', '<' ∉ gap' ∧
    let s := Scan.scanFrom offset depth (gap ++ (w.source ++ rest))
    let s' := Scan.scanFrom next depth (gap' ++ rest)
    w.Spans gap s.segments gap' s'.segments ∧ s = { s' with segments := s.segments }

namespace IsCutOff

variable {inside others : Markup} {content close : Text}

/-- Directly behind a token nothing is pending. -/
theorem behind (h : others.IsCutOff) (offset depth : Nat) (rest : Text) :
    ∃ next gap', '<' ∉ gap' ∧
      let s := Scan.scanFrom offset depth (others.source ++ rest)
      let s' := Scan.scanFrom next depth (gap' ++ rest)
      others.Spans [] s.segments gap' s'.segments ∧ s = { s' with segments := s.segments } :=
  h offset depth List.not_mem_nil rest

theorem text {event : Event} (hinert : event.elementKind? = none) (htext : event.isText = true)
    (hwhole : event.Whole) (h : others.IsCutOff) : (inert event hinert others).IsCutOff := by
  intro offset depth gap hgap rest
  have hgap' : '<' ∉ gap ++ event.source := by
    cases event with
    | text raw => simpa [hgap, Event.source] using hwhole.2
    | _ => cases htext
  obtain ⟨next, gap', hgap', hspans, hrest⟩ := h offset depth hgap' rest
  rw [List.append_assoc] at hspans hrest
  rw [source_inert, List.append_assoc]
  refine ⟨next, gap', hgap', ?_, hrest⟩
  rw [Spans, if_pos htext]
  exact hspans

theorem inert {event : Event} (hinert : event.elementKind? = none) (htext : event.isText = false)
    (hevent : event.Scannable) (h : others.IsCutOff) : (inert event hinert others).IsCutOff := by
  intro offset depth gap hgap rest
  rw [source_inert, List.append_assoc]
  obtain ⟨token, next, htoken, hsource, heq⟩ :=
    scanFrom_inert hevent hinert offset depth hgap (others.source ++ rest)
  obtain ⟨next', gap', hgap', hspans, hrest⟩ := h.behind next depth rest
  refine ⟨next', gap', hgap', ?_, ?_⟩
  · rw [Spans, if_neg (by simp [htext]), heq]
    exact ⟨token, _, rfl, htoken, hsource, hspans⟩
  · rw [heq]
    dsimp only
    rw [hrest]

theorem empty (hevent : (Event.empty content).Scannable) (h : others.IsCutOff) :
    (empty content others).IsCutOff := by
  intro offset depth gap hgap rest
  rw [source_empty, List.append_assoc]
  obtain ⟨token, next, htoken, heq⟩ :=
    scanFrom_element hevent rfl offset rfl hgap (others.source ++ rest)
  obtain ⟨next', gap', hgap', hspans, hrest⟩ := h.behind next depth rest
  refine ⟨next', gap', hgap', ?_, ?_⟩
  · rw [Spans, heq]
    exact ⟨token, _, rfl, htoken, hspans⟩
  · rw [heq]
    dsimp only
    rw [hrest]

theorem node (hopening : (Event.opening content).Scannable) (hinside : inside.IsCutOff)
    (hclosing : (Event.closing close).Scannable) (h : others.IsCutOff) :
    (node content inside close others).IsCutOff := by
  intro offset depth gap hgap rest
  rw [source_node, List.append_assoc, List.append_assoc, List.append_assoc]
  obtain ⟨token, next, htoken, heq⟩ := scanFrom_element hopening rfl offset rfl hgap
    (inside.source ++ ((Event.closing close).source ++ (others.source ++ rest)))
  obtain ⟨next₁, gap₁, hgap₁, hspans₁, hrest₁⟩ :=
    hinside.behind next (depth + 1) ((Event.closing close).source ++ (others.source ++ rest))
  have hdown : TokenKind.depthAfter .closing (depth + 1) = some depth := rfl
  obtain ⟨token', next₂, htoken', heq'⟩ :=
    scanFrom_element hclosing rfl next₁ hdown hgap₁ (others.source ++ rest)
  obtain ⟨next', gap', hgap', hspans, hrest⟩ := h.behind next₂ depth rest
  rw [heq'] at hspans₁ hrest₁
  refine ⟨next', gap', hgap', ?_, ?_⟩
  · rw [Spans, heq]
    exact ⟨token, _, gap₁, token', _, rfl, htoken, hspans₁, htoken', hspans⟩
  · rw [heq]
    dsimp only
    rw [hrest₁]
    dsimp only
    rw [hrest]

end IsCutOff

/-- **The segments of a scan start with those of the markup that a text starts
with,** and the scan goes on behind it. -/
theorem Lexed.isCutOff {w : Markup} (hlexed : w.Lexed) (hscan : w.Scannable) : w.IsCutOff := by
  induction w with
  | nil => exact fun offset depth gap hgap rest => ⟨offset, gap, hgap, ⟨rfl, rfl⟩, rfl⟩
  | inert event hinert others ih =>
    obtain ⟨hwhole, -, hlexed⟩ := hlexed
    obtain ⟨hevent, hscan⟩ := List.forall_mem_cons.mp hscan
    cases htext : event.isText with
    | true => exact .text hinert htext hwhole (ih hlexed hscan)
    | false => exact .inert hinert htext (hevent htext) (ih hlexed hscan)
  | empty content others ih =>
    obtain ⟨-, hlexed⟩ := hlexed
    obtain ⟨hevent, hscan⟩ := List.forall_mem_cons.mp hscan
    exact .empty (hevent rfl) (ih hlexed hscan)
  | node content inside close others ihinside ih =>
    obtain ⟨-, hinside, -, hlexed⟩ := hlexed
    obtain ⟨hevent, hscan⟩ := List.forall_mem_cons.mp hscan
    rw [List.forall_mem_append, List.forall_mem_cons] at hscan
    obtain ⟨hscanInside, hclose, hscan⟩ := hscan
    exact .node (hevent rfl) (ihinside hinside hscanInside) (hclose rfl) (ih hlexed hscan)

/-- **The segments of a document are those of its markup,** and its scan is
clean. -/
theorem spans_scan {w : Markup} (hlexed : w.Lexed) (hscan : w.Scannable) :
    w.Spans [] (scan w.source).segments (scan w.source).tail [] ∧
      (scan w.source).isClean = true := by
  obtain ⟨next, gap, hgap, hspans, hrest⟩ := (hlexed.isCutOff hscan).behind 0 0 []
  rw [List.append_nil, List.append_nil, Scan.scanFrom_gap next 0 hgap] at hspans hrest
  have htail : (scan w.source).tail = gap := congrArg Scan.tail hrest
  rw [htail]
  refine ⟨hspans, ?_⟩
  rw [scan, hrest]
  rfl

end Markup

end SkinMarkup
