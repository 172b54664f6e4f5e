import SkinMarkup.Proofs.Scan.Located
import SkinMarkup.Proofs.State.LaidEdits

/-!
# Texts with the same frame

An edit of states that changes nothing outside start tags, nothing in a block of
declarations below the root, and in a start tag only the attributes that it concerns
leaves the frame of a text as it is (`FramedText`): the outcome is scanned into the
same segments but for these attributes.

- `Retagged`: what becomes of a segment in a revision. Its token is a token of the
  same kind again, so the outcome of the revision is scanned as expected, and the
  root's tag can be edited in it once more (`Retagged.retag`).
- `Frames`: what the revision does to one token. It keeps the frame of the text if it
  keeps that of every token (`framedText_editRoot`).
-/

namespace SkinMarkup

/-! ## Attributes that an edit does not concern -/

/-- The names of attributes that edits of states look up in a tag. -/
def Dialect.words (d : Dialect) (token : Token) : List Text :=
  [Word.includeIn, Word.excludeFrom, Word.states, Word.currentState] ++
    if token.localName = d.state then [Word.name] else []

/-- Whether an edit of `states` leaves the attributes with a name in a tag alone. It
concerns the ones that are looked up, and those for one of the states. -/
def Dialect.spares (d : Dialect) (states : List Text) (token : Token) (name : Text) : Bool :=
  !(d.words token).contains name && states.all fun state => (stemFor? state name).isNone

section

variable {d : Dialect} {token : Token}

theorem Dialect.subset_words (d : Dialect) (token : Token) :
    [Word.includeIn, Word.excludeFrom, Word.states, Word.currentState] ⊆ d.words token :=
  List.subset_append_left _ _

theorem Dialect.words_subset (d : Dialect) (token : Token) : d.words token ⊆ Word.sought := by
  intro word hword
  rw [words] at hword
  rcases List.mem_append.mp hword with hword | hword
  · simp only [List.mem_cons, List.not_mem_nil, or_false] at hword
    rcases hword with rfl | rfl | rfl | rfl <;> simp [Word.sought]
  · split at hword
    · rw [List.mem_singleton.mp hword]
      simp [Word.sought]
    · cases hword

theorem Dialect.isWord_of_mem_words {word : Text} (h : word ∈ d.words token) : IsWord word :=
  isWord_of_mem_sought (d.words_subset token h)

theorem Dialect.spares_of_mem_words {word : Text} (h : word ∈ d.words token) (states : List Text) :
    d.spares states token word = false := by
  simp [spares, h]

theorem Dialect.spared (d : Dialect) (states : List Text) (token : Token) :
    StartTag.Spared (d.words token) states (d.spares states token) where
  words := fun _ hword => spares_of_mem_words hword states
  stems := by
    intro state hstate stem hstem
    rw [spares, Bool.and_eq_false_iff, List.all_eq_false]
    exact Or.inr ⟨state, hstate, by simp [stemFor?_append hstem]⟩

theorem Dialect.spared_lists (d : Dialect) (states : List Text) (token : Token) :
    StartTag.Spared [Word.includeIn, Word.excludeFrom] states (d.spares states token) :=
  (d.spared states token).mono (List.Subset.trans (by simp) (d.subset_words token))

end

/-! ## Start tags as tokens -/

/-- A token that is a start tag as it is laid out. -/
structure Token.IsTag (words : List Text) (token : Token) (t : StartTag) (selfClosing : Bool) :
    Prop where
  laid : t.Laid words
  named : t.name ≠ []
  kind : token.kind = .ofStart selfClosing
  text : token.text = t.text selfClosing

namespace Token

variable {words : List Text} {kept : Text → Bool} {token : Token} {t t' : StartTag}
  {selfClosing : Bool}

theorem IsTag.name_eq (h : token.IsTag words t selfClosing) : token.name = t.name :=
  StartTag.name_of_text h.laid.name (fun _ hc => h.laid.isSpace_of_head? hc) h.kind h.text

theorem IsTag.pieces_eq (h : token.IsTag words t selfClosing) : token.pieces = t.pieces := by
  rw [pieces, h.text, h.laid.ofText_text]

theorem IsTag.isStart (h : token.IsTag words t selfClosing) : token.isStart = true := by
  rw [Token.isStart, h.kind]
  cases selfClosing <;> rfl

theorem IsTag.content_ne_nil (h : token.IsTag words t selfClosing) : t.content ≠ [] := by
  intro hnil
  rw [StartTag.content] at hnil
  exact h.named (List.append_eq_nil_iff.mp hnil).1

theorem IsTag.isCut (h : token.IsTag words t selfClosing) : token.IsCut := by
  refine ⟨t.content ++ closer selfClosing, h.text, ?_⟩
  rw [h.laid.cutToken_text, h.laid.ofElement_text fun _ => h.content_ne_nil, h.kind, h.text]

/-- A tag that is reworked is a token of the same kind. -/
theorem IsTag.rework (h : token.IsTag words t selfClosing)
    (hreworked : StartTag.Reworked words kept t t') :
    IsTag words { token with text := t'.text selfClosing } t' selfClosing :=
  ⟨hreworked.laid, hreworked.name ▸ h.named, h.kind, rfl⟩

end Token

/-! ## Segments -/

/-- A segment that an edit of `states` changes in nothing but attributes that it
concerns. `names` are the elements that its token belongs to, innermost first. -/
structure Framed (d : Dialect) (states names : List Text) (s s' : Segment) : Prop where
  gap : s'.gap = s.gap
  kind : s'.token.kind = s.token.kind
  name : s'.token.name = s.token.name
  inert : s.token.isStart = false → s'.token.text = s.token.text
  /-- The root is the last of the names. -/
  sheltered : (∃ name ∈ names.dropLast, localOf name = d.declarations) →
    s'.token.text = s.token.text
  attributes : s.token.isStart = true →
    (s'.token.pieces.filter fun p => d.spares states s.token p.name) =
      s.token.pieces.filter fun p => d.spares states s.token p.name

/-- A text that an edit of `states` makes of another one: both are scanned into the
same segments, but for attributes that the edit concerns. -/
structure FramedText (d : Dialect) (states : List Text) (t t' : Text) : Prop where
  segments : Segment.Related (Framed d states) [] (scan t).segments (scan t').segments
  tail : (scan t').tail = (scan t).tail
  clean : (scan t').isClean = (scan t).isClean

/-- A segment that is a token of the same kind again, and whose start tag is
reworked. -/
structure Retagged (d : Dialect) (states names : List Text) (s s' : Segment) : Prop
    extends Segment.Recut s s' where
  inert : s.token.isStart = false → s'.token.text = s.token.text
  sheltered : (∃ name ∈ names.dropLast, localOf name = d.declarations) →
    s'.token.text = s.token.text
  tag : s.token.isStart = true → ∃ (t t' : StartTag) (selfClosing : Bool),
    s.token.IsTag (d.words s.token) t selfClosing ∧
      s'.token.IsTag (d.words s.token) t' selfClosing ∧
      StartTag.Reworked (d.words s.token) (d.spares states s.token) t t'

section

variable {d : Dialect} {states names opened : List Text} {s s' : Segment} {t t' : StartTag}
  {selfClosing : Bool}

theorem Retagged.framed (h : Retagged d states names s s') : Framed d states names s s' where
  gap := h.gap
  kind := h.kind
  name := by
    by_cases hstart : s.token.isStart = true
    · obtain ⟨t, t', selfClosing, ht, ht', hreworked⟩ := h.tag hstart
      rw [ht.name_eq, ht'.name_eq, hreworked.name]
    · rw [Token.name, Token.name, h.kind, h.inert (by simpa using hstart)]
  inert := h.inert
  sheltered := h.sheltered
  attributes := by
    intro hstart
    obtain ⟨t, t', selfClosing, ht, ht', hreworked⟩ := h.tag hstart
    rw [ht.pieces_eq, ht'.pieces_eq]
    exact hreworked.frame

theorem retagged_self (hcut : s.token.IsCut)
    (htag : s.token.isStart = true → ∃ t selfClosing, s.token.IsTag (d.words s.token) t selfClosing) :
    Retagged d states names s s where
  toRecut := Segment.recut_self hcut
  inert := fun _ => rfl
  sheltered := fun _ => rfl
  tag := by
    intro hstart
    obtain ⟨t, selfClosing, ht⟩ := htag hstart
    exact ⟨t, t, selfClosing, ht, ht, (ht.laid.revalued_refl _).toReworked⟩

/-- A start tag that is reworked outside the blocks of declarations below the root. -/
theorem retagged_retag (ht : s.token.IsTag (d.words s.token) t selfClosing)
    (hreworked : StartTag.Reworked (d.words s.token) (d.spares states s.token) t t')
    (hnames : ∀ name ∈ names.dropLast, localOf name ≠ d.declarations) :
    Retagged d states names s (s.retag (t'.text selfClosing)) where
  toRecut := Segment.recut_retag (ht.rework hreworked).isCut
  inert := by
    intro hinert
    cases hinert.symm.trans ht.isStart
  sheltered := by
    rintro ⟨name, hname, heq⟩
    exact absurd heq (hnames name hname)
  tag := fun _ => ⟨t, t', selfClosing, ht, ht.rework hreworked, hreworked⟩

/-! ## Revisions -/

/-- What an edit of states does to a token: it keeps a token that starts no element,
passes over a block of declarations, and keeps or reworks any other tag. `flags`
relates what it remembers to the elements that are open. -/
structure Frames {σ : Type} (d : Dialect) (states : List Text) (act : σ → Token → σ × Action)
    (flags : σ → List Text → Prop) (names : List Text) (s : Segment) : Prop where
  isCut : s.token.IsCut
  tag : s.token.isStart = true → ∃ t selfClosing, s.token.IsTag (d.words s.token) t selfClosing
  other : s.token.isStart = false → ∀ memory opened, flags memory opened →
    ∃ memory', act memory s.token = (memory', .keep) ∧
      flags memory' (Segment.openAfter opened s.token)
  block : s.token.isStart = true → s.token.localName = d.declarations →
    ∀ memory, act memory s.token = (memory, .pass)
  start : s.token.localName ≠ d.declarations → ∀ t selfClosing,
    s.token.IsTag (d.words s.token) t selfClosing → ∀ memory opened, flags memory opened →
      Segment.around opened s.token = names → ∃ memory' action,
        act memory s.token = (memory', action) ∧
          flags memory' (Segment.openAfter opened s.token) ∧
          (action = .keep ∨ ∃ t', action = .replace (t'.text selfClosing) ∧
            StartTag.Reworked (d.words s.token) (d.spares states s.token) t t')

variable {σ : Type} {act : σ → Token → σ × Action} {flags : σ → List Text → Prop}

/-- **Such an edit keeps every segment.** It remembers that no block of declarations
is open. -/
theorem Frames.keeps (h : Frames d states act flags names s) :
    Segment.Keeps act
      (fun memory opened => flags memory opened ∧ ∀ name ∈ opened, localOf name ≠ d.declarations)
      (fun _ => True) (Retagged d states) names s where
  sheltered := fun _ => retagged_self h.isCut h.tag
  step := by
    rintro memory opened ⟨hflags, hopened⟩ hnames
    by_cases hstart : s.token.isStart = true
    · by_cases hblock : s.token.localName = d.declarations
      · rw [h.block hstart hblock]
        exact ⟨hstart, trivial, hflags, hopened⟩
      · obtain ⟨t, selfClosing, ht⟩ := h.tag hstart
        obtain ⟨memory', action, hact, hflags', hcases⟩ :=
          h.start hblock t selfClosing ht memory opened hflags hnames
        have hall : ∀ name ∈ s.token.name :: opened, localOf name ≠ d.declarations :=
          List.forall_mem_cons.mpr ⟨hblock, hopened⟩
        have hopened' : ∀ name ∈ Segment.openAfter opened s.token, localOf name ≠ d.declarations :=
          fun name hname => hall name (Segment.openAfter_subset opened s.token hname)
        rw [hact]
        rcases hcases with rfl | ⟨t', rfl, hreworked⟩
        · exact ⟨retagged_self h.isCut h.tag, hflags', hopened'⟩
        · refine ⟨retagged_retag ht hreworked fun name hname => hall name ?_, hflags', hopened'⟩
          rw [Segment.around, if_pos hstart] at hname
          exact List.dropLast_subset _ hname
    · have hother : s.token.isStart = false := by simpa using hstart
      obtain ⟨memory', hact, hflags'⟩ := h.other hother memory opened hflags
      rw [hact]
      exact ⟨retagged_self h.isCut h.tag, hflags', fun name hname =>
        hopened name (Segment.openAfter_subset_of_not_isStart hother opened hname)⟩

/-! ## The root -/

/-- The tag of the root is reworked once more. -/
theorem Retagged.retag (h : Retagged d states [s.token.name] s s') (hstart : s.token.isStart = true)
    {tag : Text}
    (hedit : ∀ t t' selfClosing, s.token.IsTag (d.words s.token) t selfClosing →
      StartTag.Reworked (d.words s.token) (d.spares states s.token) t t' →
      s'.token.IsTag (d.words s.token) t' selfClosing →
        ∃ t'', tag = t''.text selfClosing ∧
          StartTag.Reworked (d.words s.token) (d.spares states s.token) t' t'') :
    Retagged d states [s.token.name] s (s'.retag tag) := by
  obtain ⟨t, t', selfClosing, ht, ht', hreworked⟩ := h.tag hstart
  obtain ⟨t'', rfl, hreworked'⟩ := hedit t t' selfClosing ht hreworked ht'
  have htag := ht'.rework hreworked'
  exact
    { toRecut := ⟨h.gap, h.kind, htag.isCut⟩
      inert := fun hinert => by cases hinert.symm.trans hstart
      sheltered := fun ⟨name, hname, _⟩ => by cases hname
      tag := fun _ => ⟨t, t'', selfClosing, ht, htag, hreworked.trans hreworked'⟩ }

theorem recut_of_retagged {segments segments' : List Segment}
    (h : Segment.Related (Retagged d states) opened segments segments') :
    List.Forall₂ Segment.Recut segments segments' :=
  h.forall₂ fun _ _ _ hs => hs.toRecut

/-- **A text of segments that are related is scanned into segments that are.** -/
theorem framedText_of_retagged {text : Text} {segments : List Segment}
    (h : Segment.Related (Retagged d states) [] (scan text).segments segments) :
    FramedText d states text (Segment.sourceAll segments ++ (scan text).tail) := by
  have hrecut := recut_of_retagged h
  refine ⟨Segment.forall₂_of_unplaced ?_ (segments_scan_recut hrecut)
    (List.Forall₂.imp (fun _ _ hp => Retagged.framed hp) h), tail_scan_recut hrecut,
    isClean_scan_recut hrecut⟩
  intro p s
  constructor <;>
    exact fun hp => ⟨hp.gap, hp.kind, hp.name, hp.inert, hp.sheltered, hp.attributes⟩

/-- **A revision and an edit of the root** keep a text framed. -/
theorem framedText_editRoot {text : Text} {edit : Token → Option Text} (memory : σ)
    (flags : σ → List Text → Prop)
    (hframes : ∀ p ∈ Segment.located [] (scan text).segments, Frames d states act flags p.1 p.2)
    (hmemory : flags memory []) (hany : ∃ s ∈ (scan text).segments, s.token.isElement = true)
    (hplace : ∀ token start, edit { token with start } = edit token)
    (hedit : ∀ s, ([s.token.name], s) ∈ Segment.located [] (scan text).segments →
      ∀ t t' selfClosing, s.token.IsTag (d.words s.token) t selfClosing →
        StartTag.Reworked (d.words s.token) (d.spares states s.token) t t' →
        ∀ token, token.IsTag (d.words s.token) t' selfClosing → ∀ tag, edit token = some tag →
          ∃ t'', tag = t''.text selfClosing ∧
            StartTag.Reworked (d.words s.token) (d.spares states s.token) t' t'') :
    FramedText d states text
      ((editRoot edit (reviseText act memory text).text).getD (reviseText act memory text).text) := by
  have hremembers : flags memory [] ∧ ∀ name ∈ ([] : List Text), localOf name ≠ d.declarations :=
    ⟨hmemory, nofun⟩
  obtain ⟨segments, hrevised, hrelated⟩ :=
    Segment.exists_revised (fun p hp => (hframes p hp).keeps) (fun _ _ _ => id) hremembers
  have hrecut := recut_of_retagged hrelated
  obtain ⟨before, root, after, rfl, hbefore, hroot⟩ := Segment.exists_root
    ((Segment.depthAfter_of_forall₂ hrecut).trans (Scan.depthAfter_scan text))
    (Segment.exists_element_of_forall₂ hrecut hany)
  have htext : (reviseText act memory text).text =
      Segment.sourceAll (before ++ root :: after) ++ (scan text).tail := by
    rw [← hrevised]
    rfl
  rw [htext, editRoot_recut hrecut hbefore hroot edit (hplace root.token)]
  cases hsome : edit root.token with
  | none => exact framedText_of_retagged hrelated
  | some tag =>
    obtain ⟨-, s, -, -, -, hs, hretagged, hreplace⟩ :=
      hrelated.exists_root (fun _ _ _ h => h.kind) hbefore hroot
    refine framedText_of_retagged (hreplace (fun _ _ _ => id) _ (hretagged.retag ?_ ?_))
    · rw [Token.isStart, ← hretagged.kind]
      exact hroot
    · exact fun t t' selfClosing ht hreworked ht' =>
        hedit s hs t t' selfClosing ht hreworked root.token ht' tag hsome

end

end SkinMarkup
